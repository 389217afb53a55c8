/-
# Operations on integers run to the end

An operation on integers is not refused if its operands are not empty and can be read, and if its
results may be driven: whatever the widths are, the checks of the operations it is made of hold,
every wire it reads has been driven by then, and at the end all of its results have
(`Build.multiply_fills`, `Build.divide_fills` and one such theorem for each of the others). An
operation allocates bundles for its intermediate results, so these have to stay within what a
bundle can hold.

Key theorems: `Build.selectTo_fills`, `Build.lessThan_fills`, `Build.magnitude_fills`,
`Build.applySign_fills`, `Build.multiply_fills`, `Build.divide_fills`.
-/
import BitCircuit.Integer.Order
import BitCircuit.Integer.Product
import BitCircuit.Integer.Quotient
import BitCircuit.Proofs.Integer.AdderCompletion

namespace BitCircuit

namespace Room

variable {D D' : Set Wire} {out out' temps : Bundle} {m n : Nat}

theorem mono (h : Room D out temps n) (hm : m ≤ n) : Room D out temps m :=
  ⟨h.out_mem, h.temps_mem, h.apart, hm.trans h.enough⟩

theorem of_subset (h : Room D out temps n) (hsub : ∀ w ∈ out', w ∈ out) : Room D out' temps n :=
  ⟨fun w hw => h.out_mem w (hsub w hw), h.temps_mem, fun w hw hw' => h.apart w hw (hsub w hw'), h.enough⟩

/-- Room for a bundle that an operation has made for itself. -/
theorem inner (h : Room D out temps n) (hsub : D ⊆ D') (hout : ∀ w ∈ out', w ∈ D' ∧ w ∉ D) :
    Room D' out' temps n :=
  ⟨fun w hw => (hout w hw).1, fun w hw => hsub (h.temps_mem w hw),
    fun w hw hw' => (hout w hw').2 (h.temps_mem w hw), h.enough⟩

/-- Room with temporaries that an operation has made for itself. -/
theorem of_temps (hout : ∀ w ∈ out, w ∈ D) (hsub : D ⊆ D') (htemps : ∀ w ∈ temps, w ∈ D' ∧ w ∉ D)
    (hn : n ≤ temps.length) : Room D' out temps n :=
  ⟨fun w hw => hsub (hout w hw), fun w hw => (htemps w hw).1,
    fun w hw hw' => (htemps w hw).2 (hout w hw'), hn⟩

end Room

namespace Build

variable {α : Type} {c : Circuit} {D : Set Wire} {kind : GateKind} {enc : Encoding}
  {obj : Objective} {a b out temps : Bundle}

theorem ne_nil_of_length_eq (h : b.length = a.length) (ha : a ≠ []) : b ≠ [] := by
  rintro rfl
  exact ha (List.eq_nil_of_length_eq_zero h.symm)

/-! ### Bit by bit -/

section

variable (hs : c.Site D) (hout : ∀ w ∈ out, w ∈ D) (hlimit : out.length < wireLimit) (hane : a ≠ [])
  (ha : ∀ w ∈ a, c.Ready D w)
include hs hout hlimit hane ha

theorem complement_fills : (complement a out).Fills c D out := by
  unfold complement
  refine .checked (requireNonempty_eq_ok.mpr (by simpa using hane)) ?_
  refine .checked (requireDistinct_of_ready (by simpa using ha) (by simpa using hout)) ?_
  refine .bind (extend_ready hs hlimit hane ha) ?_
  rintro x c₁ ⟨hev, hlen, hx⟩
  refine .checked (inStep_eq_ok.mpr ⟨hlen, rfl⟩) (Fills.after ?_ (hev.of_empty D))
  refine forM_zip_fills hev.wellFormed hlen fun x hx' o ho c' hev' => ?_
  exact invTo_fills ((hs.evolves hev).evolves hev') (hev'.readable (hx x hx').readable) (hout o ho)

theorem copyBundle_fills : (copyBundle a out enc).Fills c D out := by
  unfold copyBundle
  refine .bind (extend_ready hs hlimit hane ha) ?_
  rintro x c₁ ⟨hev, hlen, hx⟩
  refine .checked (inStep_eq_ok.mpr ⟨hlen, rfl⟩) (Fills.after ?_ (hev.of_empty D))
  refine forM_zip_fills hev.wellFormed hlen fun x hx' o ho c' hev' => ?_
  exact copyTo_fills ((hs.evolves hev).evolves hev') (hev'.readable (hx x hx').readable) (hout o ho)

theorem bitwise_fills (hk : kind.isUnary = false) (hbne : b ≠ []) (hb : ∀ w ∈ b, c.Ready D w) :
    (bitwise kind a b out enc).Fills c D out := by
  unfold bitwise
  refine .checked (requireNonempty_eq_ok.mpr (by simp [hane, hbne])) ?_
  refine .checked (requireDistinct_of_ready (ready_pair ha hb) (by simpa using hout)) ?_
  refine extend_both_ready hs hlimit hane hbne ha hb fun x y c₁ hev hxlen hylen hx hy => ?_
  have hlen : (x.zip y).length = out.length := by
    rw [List.length_zip, hxlen, hylen, Nat.min_self]
  refine .checked (inStep_eq_ok.mpr ⟨hxlen.trans hylen.symm, rfl⟩) ?_
  refine .checked (inStep_eq_ok.mpr ⟨hlen, rfl⟩) (Fills.after ?_ (hev.of_empty D))
  refine forM_zip_fills hev.wellFormed hlen fun q hq o ho c' hev' => ?_
  exact gateTo_fills ((hs.evolves hev).evolves hev') hk
    (hev'.readable (hx _ (List.of_mem_zip hq).1).readable)
    (hev'.readable (hy _ (List.of_mem_zip hq).2).readable) (hout o ho)

end

/-- A selection, with the one temporary it needs. -/
theorem selectTo_fills {ifTrue ifFalse : Bundle} {choice : Wire} (hs : c.Site D)
    (hf : ifFalse.length = ifTrue.length) (ho : out.length = ifTrue.length)
    (ht : ∀ w ∈ ifTrue, c.Ready D w) (hfr : ∀ w ∈ ifFalse, c.Ready D w) (hc : c.Ready D choice)
    (hroom : Room D out temps 1) : (selectTo ifTrue ifFalse [choice] out temps).Fills c D out := by
  have hread : ∀ x ∈ [ifTrue, ifFalse, [choice]], ∀ w ∈ x, c.Ready D w := by
    simpa using And.intro ht (And.intro hfr hc)
  have hout : requireDistinct [out] [ifTrue, ifFalse, [choice]] = .ok () :=
    requireDistinct_of_ready hread (by simpa using hroom.out_mem)
  have htemps : requireDistinct [temps] [ifTrue, ifFalse, [choice], out] = .ok () := Room.distinct hread hroom
  obtain ⟨spare, hspare, hat⟩ := exists_wireAt (b := temps) (i := 0) hroom.enough
  have hspareD := hroom.temps_mem spare hspare
  have hlen : (ifTrue.zip ifFalse).length = out.length := by
    rw [List.length_zip, hf, Nat.min_self, ho]
  unfold selectTo
  refine .checked (requireWidth_eq_ok.mpr rfl) (.checked (requireWidth_eq_ok.mpr hf) ?_)
  refine .checked (requireWidth_eq_ok.mpr ho) (.checked (requireTemps_eq_ok.mpr hroom.enough) ?_)
  refine .checked hout (.checked htemps (.checked hat (.checked (wireAt_eq_ok.mpr rfl) ?_)))
  refine .checked (inStep_eq_ok.mpr ⟨hf.symm, rfl⟩) (.checked (inStep_eq_ok.mpr ⟨hlen, rfl⟩) ?_)
  refine forM_zip_fills hs.wellFormed hlen fun q hq o ho c₁ hev => ?_
  obtain ⟨hqt, hqf⟩ := List.of_mem_zip hq
  have hs₁ := hs.evolves hev
  have hqf₁ : c₁.Readable q.2 := hev.readable (hfr _ hqf).readable
  refine .last (gateTo_fills hs₁ rfl (hev.readable (ht _ hqt).readable) hqf₁ hspareD) fun c₂ hev₂ h₂ => ?_
  refine .last (gateTo_fills (hs₁.evolves hev₂) rfl (h₂ spare (by simp))
    (hev₂.readable (hev.readable hc.readable)) hspareD) fun c₃ hev₃ h₃ => ?_
  exact gateTo_fills ((hs₁.evolves hev₂).evolves hev₃) rfl (h₃ spare (by simp))
    (hev₃.readable (hev₂.readable hqf₁)) (hroom.out_mem o ho)

/-- A selection on new wires. -/
theorem select_yields {ifTrue ifFalse : Bundle} {choice : Wire} (hs : c.Site D)
    (hf : ifFalse.length = ifTrue.length) (ht : ∀ w ∈ ifTrue, c.Ready D w)
    (hfr : ∀ w ∈ ifFalse, c.Ready D w) (hc : c.Ready D choice) :
    (select ifTrue ifFalse choice).Yields c fun ws c' =>
      c.Evolves ∅ c' ∧ ws.length = ifTrue.length ∧ ∀ w ∈ ws, c'.Ready D w := by
  have hlen : (ifTrue.zip ifFalse).length = ifTrue.length := by
    rw [List.length_zip, hf, Nat.min_self]
  unfold select
  refine .checked (requireWidth_eq_ok.mpr hf) (hlen ▸ mapM_finds hs.wellFormed fun q hq c₁ hev => ?_)
  obtain ⟨hqt, hqf⟩ := List.of_mem_zip hq
  have hs₁ := hs.evolves hev
  refine .bind (gate_finds hs₁ rfl ((ht _ hqt).evolves hev) ((hfr _ hqf).evolves hev)) ?_
  rintro d c₂ ⟨hev₂, hd⟩
  refine .bind (gate_finds (hs₁.evolves hev₂) rfl hd ((hc.evolves hev).evolves hev₂)) ?_
  rintro d' c₃ ⟨hev₃, hd'⟩
  have hev' := hev₂.trans_same hev₃
  refine Yields.mono (gate_finds (hs₁.evolves hev') rfl hd' (((hfr _ hqf).evolves hev).evolves hev')) ?_
  rintro w c₄ ⟨hev₄, hw⟩
  exact ⟨hev'.trans_same hev₄, hw⟩

/-! ### Equality and order -/

theorem orAll_yields {ws : Bundle} (hs : c.Site D) (hne : ws ≠ []) (hws : ∀ w ∈ ws, c.Ready D w) :
    (orAll ws).Yields c fun w c' => c.Evolves D c' ∧ c'.Ready D w := by
  refine reduce_yields (P := fun w c' => c'.Ready D w) (k := fun _ => 0) (fun _ _ _ h hev => h.evolves hev)
    (fun _ lo hi c₁ hs hlo hhi _ => ?_) hs hws (List.pairwise_of_forall fun _ _ => Nat.le_refl 0) hne
  refine Yields.mono (gate_finds hs rfl hlo hhi) ?_
  rintro w c₂ ⟨hev, hw⟩
  exact ⟨hev.of_empty D, hw, rfl⟩

section

variable (hs : c.Site D) (hout : ∀ w ∈ out, w ∈ D) (hone : out.length = 1) (hane : a ≠ [])
  (ha : ∀ w ∈ a, c.Ready D w)
include hs hout hone hane ha

theorem isZero_fills : (isZero a out).Fills c D out := by
  obtain ⟨o, rfl⟩ := List.length_eq_one_iff.mp hone
  unfold isZero
  refine .checked (requireWidth_eq_ok.mpr hone) ?_
  refine .checked (requireDistinct_of_ready (by simpa using ha) (by simpa using hout)) ?_
  refine .bind (orAll_yields hs hane ha) ?_
  rintro any c₁ ⟨hev, hany⟩
  refine .checked (wireAt_eq_ok.mpr rfl) (Fills.after ?_ hev)
  exact invTo_fills (hs.evolves hev) hany.readable (hout o (by simp))

variable (hlen : b.length = a.length) (hb : ∀ w ∈ b, c.Ready D w)
include hlen hb

theorem differ_yields : (differ a b out).Yields c fun w c' => c.Evolves D c' ∧ c'.Ready D w := by
  unfold differ
  refine .checked (requireWidth_eq_ok.mpr hone) (.checked (requireWidth_eq_ok.mpr hlen) ?_)
  refine .checked (requireDistinct_of_ready (ready_pair ha hb) (by simpa using hout)) ?_
  refine .bind (mapM_gate_finds rfl hs fun q hq =>
    ⟨ha _ (List.of_mem_zip hq).1, hb _ (List.of_mem_zip hq).2⟩) ?_
  rintro ws c₁ ⟨hev, hwlen, hws⟩
  rw [List.length_zip, hlen, Nat.min_self] at hwlen
  refine (orAll_yields (hs.evolves hev) (ne_nil_of_length_eq hwlen hane) hws).mono ?_
  rintro w c₂ ⟨hev', hw⟩
  exact ⟨(hev.of_empty D).trans_same hev', hw⟩

theorem equal_fills : (equal a b out).Fills c D out := by
  obtain ⟨o, rfl⟩ := List.length_eq_one_iff.mp hone
  unfold equal
  refine .bind (differ_yields hs hout hone hane ha hlen hb) ?_
  rintro any c₁ ⟨hev, hany⟩
  refine .checked (wireAt_eq_ok.mpr rfl) (Fills.after ?_ hev)
  exact invTo_fills (hs.evolves hev) hany.readable (hout o (by simp))

theorem notEqual_fills : (notEqual a b out).Fills c D out := by
  obtain ⟨o, rfl⟩ := List.length_eq_one_iff.mp hone
  unfold notEqual
  refine .bind (differ_yields hs hout hone hane ha hlen hb) ?_
  rintro any c₁ ⟨hev, hany⟩
  refine .checked (wireAt_eq_ok.mpr rfl) (Fills.after ?_ hev)
  exact copyTo_fills (hs.evolves hev) hany.readable (hout o (by simp))

end

section Temporaries

variable (hs : c.Site D) (hout : ∀ w ∈ out, w ∈ D)
include hs hout

/-- Temporaries that an operation makes for itself. -/
theorem addTemps_room {n : Nat} (hn : n < wireLimit) :
    (addTemps n).Yields c fun temps c' => ∃ D', c.Widens D c' D' ∧ Room D' out temps n := by
  refine (addTemps_widens hs hn).mono ?_
  rintro temps c₁ ⟨hlen, hnew, hwide⟩
  exact ⟨_, hwide, .of_temps hout hwide.subset (fun w hw => ⟨.inr hw, hnew w hw⟩) hlen.ge⟩

theorem adderTemps_room :
    (adderTemps obj).Yields c fun temps c' => ∃ D', c.Widens D c' D' ∧ Room D' out temps obj.temps := by
  cases obj with
  | size => exact addTemps_room hs hout (by decide)
  | depth => exact .pure ⟨D, .refl hs, hout, by simp, by simp, Nat.le_refl 0⟩

theorem divisionTemps_room :
    (divisionTemps obj).Yields c fun temps c' =>
      ∃ D', c.Widens D c' D' ∧ Room D' out temps (max 1 obj.temps) := by
  cases obj with
  | size => exact addTemps_room hs hout (by decide)
  | depth => exact addTemps_room hs hout (by decide)

end Temporaries

/-- An operation that makes its temporaries for itself. -/
theorem fills_of_room {step : Build Bundle} {f : Bundle → Build Unit} {n : Nat}
    (h : step.Yields c fun temps c' => ∃ D', c.Widens D c' D' ∧ Room D' out temps n)
    (hf : ∀ temps c' D', c.Widens D c' D' → Room D' out temps n → (f temps).Fills c' D' out) :
    (step >>= f).Fills c D out := by
  refine .bind h ?_
  rintro temps c₁ ⟨D₁, hwide, hroom⟩
  exact Fills.widened (hf temps c₁ D₁ hwide hroom) hwide


theorem lessThan_fills (hs : c.Site D) (hout : ∀ w ∈ out, w ∈ D) (hone : out.length = 1)
    (hane : a ≠ []) (hbne : b ≠ []) (ha : ∀ w ∈ a, c.Ready D w) (hb : ∀ w ∈ b, c.Ready D w)
    (hlimit : max a.length b.length + 1 < wireLimit) : (lessThan a b out enc obj).Fills c D out := by
  unfold lessThan
  refine .checked (requireWidth_eq_ok.mpr hone) ?_
  refine .checked (requireNonempty_eq_ok.mpr (by simp [hane, hbne])) ?_
  refine fills_of_room (adderTemps_room hs hout) fun temps c₁ D₁ hwide hroom => ?_
  exact sumBit_fills hwide.site hane hbne (fun w hw => hwide.ready (ha w hw))
    (fun w hw => hwide.ready (hb w hw)) hroom hone hlimit

theorem atLeast_fills (hs : c.Site D) (hout : ∀ w ∈ out, w ∈ D) (hone : out.length = 1)
    (hane : a ≠ []) (hbne : b ≠ []) (ha : ∀ w ∈ a, c.Ready D w) (hb : ∀ w ∈ b, c.Ready D w)
    (hlimit : max a.length b.length + 1 < wireLimit) : (atLeast a b out enc obj).Fills c D out := by
  obtain ⟨o, rfl⟩ := List.length_eq_one_iff.mp hone
  unfold atLeast
  refine .checked (requireWidth_eq_ok.mpr hone) ?_
  refine newBundle_fills hs (by decide) (fun less c₁ D₁ hwide hless hlen => ?_)
    fun less c₁ hev hless hlen => ?_
  · exact lessThan_fills hwide.site (fun w hw => (hless w hw).1) hlen hane hbne
      (fun w hw => hwide.ready (ha w hw)) (fun w hw => hwide.ready (hb w hw)) hlimit
  · obtain ⟨l, rfl⟩ := List.length_eq_one_iff.mp hlen
    refine .checked (wireAt_eq_ok.mpr rfl) (.checked (wireAt_eq_ok.mpr rfl) (Fills.after ?_ hev))
    exact invTo_fills (hs.evolves hev) (hless l (by simp)).readable (hout o (by simp))

/-! ### Sign and magnitude -/

section

variable (hs : c.Site D) (hone : out ≠ []) (hlimit : out.length < wireLimit) (hane : a ≠ [])
  (ha : ∀ w ∈ a, c.Ready D w)
include hs hone hlimit hane ha

theorem negate_fills (hroom : Room D out temps obj.temps) : (negate a out temps obj).Fills c D out := by
  unfold negate
  refine .checked (requireNonempty_eq_ok.mpr (by simp [hane, hone])) ?_
  refine .bind (extend_ready hs hlimit hane ha) ?_
  rintro x c₁ ⟨hev, hxlen, hx⟩
  have hs₁ := hs.evolves hev
  refine .bind (mapM_finds hs₁.wellFormed fun w hw c' hev' =>
    inv_finds (hs₁.evolves hev') ((hx w hw).evolves hev')) ?_
  rintro inverted c₂ ⟨hev₂, hilen, hinverted⟩
  have hev := hev.trans_same hev₂
  refine .bind (constant_finds (hs.evolves hev) true) ?_
  rintro one c₃ ⟨hev₃, hone'⟩
  have hine : inverted ≠ [] := ne_nil_of_length_eq (hilen.trans hxlen) hone
  have hev := hev.trans_same hev₃
  refine Fills.after ?_ (hev.of_empty D)
  exact addSub_fills (hs.evolves hev) hine (by simp) (fun w hw => (hinverted w hw).evolves hev₃)
    (by simpa using hone') hroom hone hlimit

variable (hroom : Room D out temps (max 1 obj.temps))
include hroom

/-- The magnitude needs the temporary of a selection besides those of an adder. -/
theorem magnitude_fills (halimit : a.length < wireLimit) : (magnitude a out temps obj).Fills c D out := by
  have hdistinct : requireDistinct [out] [a, temps] = .ok () := by
    refine requireDistinct_eq_ok.mpr ?_
    simp only [List.mem_cons, List.not_mem_nil, or_false, forall_eq_or_imp, forall_eq]
    exact ⟨fun w hw h => (ha w h).apart (hroom.out_mem w hw), fun w hw h => hroom.apart w h hw⟩
  obtain ⟨sign, hsign, hmsb⟩ := exists_msb hane
  unfold magnitude
  refine .checked (requireNonempty_eq_ok.mpr (by simp [hane, hone])) (.checked hdistinct (.checked hmsb ?_))
  refine newBundle_fills hs halimit (fun negated c₁ D₁ hwide hnegated hlen => ?_)
    fun negated c₁ hev hnegated hlen => ?_
  · exact negate_fills hwide.site (ne_nil_of_length_eq hlen hane) (hlen ▸ halimit) hane
      (fun w hw => hwide.ready (ha w hw)) ((hroom.inner hwide.subset hnegated).mono (le_max_right _ _))
  · have hs₁ := hs.evolves hev
    have ha₁ : ∀ w ∈ a, c₁.Ready D w := fun w hw => (ha w hw).evolves hev
    have hroom₁ := hroom.mono (le_max_left 1 obj.temps)
    split
    · rename_i heq
      exact Fills.after (selectTo_fills hs₁ hlen.symm (heq.trans hlen.symm) hnegated ha₁ (ha₁ sign hsign)
        hroom₁) hev
    · refine newBundle_fills hs₁ halimit (fun absolute c₂ D₂ hwide habsolute hlen' => ?_)
        fun absolute c₂ hev' habsolute hlen' => ?_
      · exact selectTo_fills hwide.site hlen.symm (hlen'.trans hlen.symm)
          (fun w hw => hwide.ready (hnegated w hw)) (fun w hw => hwide.ready (ha₁ w hw))
          (hwide.ready (ha₁ sign hsign)) (hroom₁.inner hwide.subset habsolute)
      · have hev := hev.trans_same hev'
        exact Fills.after (copyBundle_fills (hs.evolves hev) hroom.out_mem hlimit
          (ne_nil_of_length_eq hlen' hane) habsolute) hev

theorem applySign_fills {sign : Wire} (hsign : c.Ready D sign) :
    (applySign a [sign] out temps obj).Fills c D out := by
  unfold applySign
  refine .checked (requireWidth_eq_ok.mpr rfl) ?_
  refine .checked (requireNonempty_eq_ok.mpr (by simp [hane, hone])) ?_
  refine .bind (extend_ready hs hlimit hane ha) ?_
  rintro absolute c₁ ⟨hev, hxlen, hx⟩
  have hs₁ := hs.evolves hev
  have hev := hev.of_empty D
  refine newBundle_fills hs₁ hlimit (fun negated c₂ D₂ hwide hnegated hlen => ?_)
    fun negated c₂ hev' hnegated hlen => ?_
  · exact negate_fills hwide.site (ne_nil_of_length_eq hlen hone) (hlen ▸ hlimit)
      (ne_nil_of_length_eq hxlen hone) (fun w hw => hwide.ready (hx w hw))
      ((hroom.inner hwide.subset hnegated).mono (le_max_right _ _))
  · refine Fills.after ?_ (hev.trans_same hev')
    exact selectTo_fills (hs₁.evolves hev') (hxlen.trans hlen.symm) hlen.symm hnegated
      (fun w hw => (hx w hw).evolves hev') ((hsign.evolves hev).evolves hev')
      (hroom.mono (le_max_left _ _))

end

/-- The magnitude of an operand in a bundle of its own, as signed operations start. -/
theorem newMagnitude_yields {rest : Bundle → Build α} {P : α → Circuit → Prop} (hs : c.Site D)
    (hane : a ≠ []) (ha : ∀ w ∈ a, c.Ready D w) (halimit : a.length < wireLimit)
    (hroom : Room D out temps (max 1 obj.temps))
    (hrest : ∀ m c', c.Evolves D c' → (∀ w ∈ m, c'.Ready D w) → m.length = a.length →
      (rest m).Yields c' P) :
    (newBundle a.length >>= fun m => magnitude a m temps obj >>= fun _ => rest m).Yields c P := by
  refine newBundle_fills hs halimit (fun m c₁ D₁ hwide hm hlen => ?_) hrest
  exact magnitude_fills hwide.site (ne_nil_of_length_eq hlen hane) (hlen ▸ halimit) hane
    (fun w hw => hwide.ready (ha w hw)) (hroom.inner hwide.subset hm) halimit

/-! ### Multiplication -/

theorem constantBundle_ready {v : Word} {n : Nat} (hs : c.Site D) (hn : n < wireLimit) :
    (constantBundle v n).Yields c fun ws c' =>
      c.Evolves ∅ c' ∧ ws.length = n ∧ ∀ w ∈ ws, c'.Ready D w := by
  have hlen : (v.signedBits n).length = n := by simp [Word.signedBits]
  refine .checked (requireBelow_eq_ok.mpr hn) (Yields.mono (mapM_finds hs.wellFormed fun bit _ c' hev =>
    constant_finds (hs.evolves hev) bit) ?_)
  rintro ws c' ⟨hev, hwlen, hws⟩
  exact ⟨hev, hwlen.trans hlen, hws⟩

/-- A partial sum that can be read and starts below the width of the product. -/
structure TermReady (c : Circuit) (D : Set Wire) (width : Nat) (s : ShiftedSum) : Prop where
  shift_lt : s.shift < width
  bits_ne : s.bits ≠ []
  bits : ∀ w ∈ s.bits, c.Ready D w

theorem TermReady.evolves {c' : Circuit} {D' : Set Wire} {width : Nat} {s : ShiftedSum}
    (h : TermReady c D width s) (hev : c.Evolves D' c') : TermReady c' D width s :=
  ⟨h.shift_lt, h.bits_ne, fun w hw => (h.bits w hw).evolves hev⟩

/-- There is a term for each bit of `b` below the width, and they are in the order of their shifts. -/
theorem partialProducts_yields {width : Nat} (hs : c.Site D) (hane : a ≠ []) (hbne : b ≠ [])
    (ha : ∀ w ∈ a, c.Ready D w) (hb : ∀ w ∈ b, c.Ready D w) (hwidth : 0 < width)
    (hlimit : a.length < wireLimit) :
    (partialProducts a b width).Yields c fun terms c' => c.Evolves ∅ c' ∧ terms ≠ [] ∧
      (∀ s ∈ terms, TermReady c' D width s) ∧ terms.Pairwise (·.shift ≤ ·.shift) := by
  have hapos := List.length_pos_iff.mpr hane
  have hbpos := List.length_pos_iff.mpr hbne
  unfold partialProducts
  refine Yields.mono (mapM_yields (D := ∅)
    (P := fun (p : Wire × Nat) (s : ShiftedSum) c' => s.shift = p.2 ∧ TermReady c' D width s)
    (fun h hev => ⟨h.1, h.2.evolves hev⟩) hs.wellFormed ?_) ?_
  · rintro ⟨bit, shift⟩ hp c₁ hev
    obtain ⟨hshift, hbit⟩ := List.mem_zipIdx' hp
    have hshift : shift < width := Nat.lt_of_lt_of_le hshift (List.length_take_le width b)
    have hbit : c₁.Ready D bit := (hb bit (List.mem_of_mem_take (hbit ▸ List.getElem_mem _))).evolves hev
    have hcut : min a.length (width - shift) ≤ a.length := Nat.min_le_left _ _
    dsimp only
    refine .checked (difference_eq_ok hshift.le) (.checked (slice_eq_ok.mpr ⟨⟨Nat.zero_le _, hcut⟩, rfl⟩) ?_)
    rw [List.drop_zero]
    have hlen := List.length_take_of_le hcut
    refine .bind (constantBundle_ready (hs.evolves hev) (by omega)) ?_
    rintro zero c₂ ⟨hev₂, hzlen, hzero⟩
    refine .bind (select_yields ((hs.evolves hev).evolves hev₂) hzlen
      (fun w hw => ((ha w (List.mem_of_mem_take hw)).evolves hev).evolves hev₂) hzero (hbit.evolves hev₂)) ?_
    rintro bits c₃ ⟨hev₃, hblen, hbits⟩
    have hne : bits ≠ [] := List.length_pos_iff.mp (by omega)
    exact .pure ⟨hev₂.trans_same hev₃, rfl, hshift, hne, hbits⟩
  · rintro terms c' ⟨hev, h⟩
    have hshifts : (b.take width).zipIdx.map Prod.snd = terms.map ShiftedSum.shift := by
      rw [← List.forall₂_eq_eq_eq, List.forall₂_map_left_iff, List.forall₂_map_right_iff]
      exact h.imp fun _ _ h => h.1.symm
    rw [List.zipIdx_map_snd] at hshifts
    refine ⟨hev, ?_, (forall₂_right (h.imp fun _ _ h => h.2)).2, ?_⟩
    · rintro rfl
      have hlen := congrArg List.length hshifts
      rw [List.length_range', List.length_take, List.map_nil, List.length_nil] at hlen
      omega
    · exact List.pairwise_map.mp (hshifts ▸ List.pairwise_le_range')

section Accumulate

variable {width : Nat} (hwidth : width < wireLimit) (hroom : Room D [] temps obj.temps)
include hwidth hroom

/-- The sum of two terms starts where the first one does. -/
theorem accumulate_yields {lo hi : ShiftedSum} (hs : c.Site D) (hlo : TermReady c D width lo)
    (hhi : TermReady c D width hi) (hle : lo.shift ≤ hi.shift) :
    (accumulate width temps obj lo hi).Yields c fun s c' =>
      c.Evolves D c' ∧ TermReady c' D width s ∧ s.shift = lo.shift := by
  have hlolt := hlo.shift_lt
  have hhilt := hhi.shift_lt
  unfold accumulate
  refine .checked (difference_eq_ok hle) (.bind (extend_ready hs (by omega) hlo.bits_ne hlo.bits) ?_)
  rintro low c₁ ⟨hev, -, hlow⟩
  refine .checked (difference_eq_ok hhilt.le) (.bind (newBundle_widens (hs.evolves hev) (by omega)) ?_)
  rintro sum c₂ ⟨hslen, hnew, hwide⟩
  have hsne : sum ≠ [] := List.length_pos_iff.mp (by omega)
  have hadd : ∀ upper c₃, c₂.Evolves ∅ c₃ → upper ≠ [] →
      (∀ w ∈ upper, c₃.Ready (D ∪ {w | w ∈ sum}) w) →
      (add upper hi.bits sum temps .unsigned obj >>= fun _ =>
        (pure ⟨lo.shift, low ++ sum⟩ : Build ShiftedSum)).Yields c₃ fun s c' =>
          c.Evolves D c' ∧ TermReady c' D width s ∧ s.shift = lo.shift := by
    intro upper c₃ hev₃ hne hupper
    refine .bind (addSub_fills (hwide.site.evolves hev₃) hne hhi.bits_ne hupper
      (fun w hw => (hwide.ready ((hhi.bits w hw).evolves hev)).evolves hev₃)
      (hroom.inner hwide.subset fun w hw => ⟨.inr hw, hnew w hw⟩) hsne (by omega)) ?_
    rintro u c₄ ⟨hev₄, hsum⟩
    have hev' := hwide.evolves_of ((hev₃.of_empty _).trans_same hev₄)
    refine .pure ⟨(hev.of_empty D).trans_same hev', ⟨hlolt, by simp [hsne], fun w hw => ?_⟩, rfl⟩
    rcases List.mem_append.mp hw with hw | hw
    · exact (hlow w hw).evolves hev'
    · exact ⟨hsum w hw, hnew w hw⟩
  dsimp only
  rw [if_pos (by simpa using hsne)]
  -- the bits of the first term from where the second one starts, or a zero if there are none
  split
  · rename_i hgap
    refine .checked (slice_eq_ok.mpr ⟨⟨hgap.le, le_rfl⟩, rfl⟩) ?_
    rw [List.take_length]
    refine hadd _ c₂ (.refl hwide.site.wellFormed ∅) ?_ fun w hw => ?_
    · exact List.length_pos_iff.mp (by rw [List.length_drop]; omega)
    · exact hwide.ready ((hlo.bits w (List.mem_of_mem_drop hw)).evolves hev)
  · refine .bind (constantBundle_ready hwide.site (by decide)) ?_
    rintro upper c₃ ⟨hev₃, hulen, hupper⟩
    exact hadd upper c₃ hev₃ (List.length_pos_iff.mp (by omega)) hupper

/-- All terms summed, one after the other. -/
theorem foldlM_accumulate_yields {first : ShiftedSum} {rest : List ShiftedSum} (hs : c.Site D)
    (hterms : ∀ s ∈ first :: rest, TermReady c D width s)
    (hshifts : (first :: rest).Pairwise (·.shift ≤ ·.shift)) :
    (rest.foldlM (accumulate width temps obj) first).Yields c fun s c' =>
      c.Evolves D c' ∧ TermReady c' D width s := by
  obtain ⟨hfirst, hrest⟩ := List.forall_mem_cons.mp hterms
  -- the sum so far starts where the first term does, below all that are left
  have hsum : (rest.foldlM (accumulate width temps obj) first).Yields c fun s c' =>
      c.Evolves D c' ∧ TermReady c' D width s ∧ s.shift = first.shift := by
    refine Yields.foldlM ⟨.refl hs.wellFormed D, hfirst, rfl⟩ ?_
    rintro term hterm sum c₁ ⟨hev, hsum, hshift⟩
    refine Yields.mono (accumulate_yields hwidth hroom (hs.evolves hev) hsum
      ((hrest term hterm).evolves hev) (hshift ▸ List.rel_of_pairwise_cons hshifts hterm)) ?_
    rintro sum' c₂ ⟨hev', hsum', hshift'⟩
    exact ⟨hev.trans_same hev', hsum', hshift'.trans hshift⟩
  exact hsum.mono fun _ _ h => ⟨h.1, h.2.1⟩

end Accumulate

section Multiply

variable (hs : c.Site D) (hane : a ≠ []) (hbne : b ≠ []) (hone : out ≠ []) (ha : ∀ w ∈ a, c.Ready D w)
  (hb : ∀ w ∈ b, c.Ready D w) (hout : ∀ w ∈ out, w ∈ D) (halimit : a.length < wireLimit)
  (hlimit : out.length < wireLimit)
include hs hane hbne hone ha hb hout halimit hlimit

theorem multiplyUnsigned_fills : (multiplyUnsigned a b out obj).Fills c D out := by
  unfold multiplyUnsigned
  refine fills_of_room (adderTemps_room hs hout) fun temps c₁ D₁ hwide hroom => ?_
  refine .bind (partialProducts_yields hwide.site hane hbne (fun w hw => hwide.ready (ha w hw))
    (fun w hw => hwide.ready (hb w hw)) (List.length_pos_iff.mpr hone) halimit) ?_
  rintro terms c₂ ⟨hev, hne, hterms, hshifts⟩
  have hs₂ := hwide.site.evolves hev
  have hroom' : Room D₁ [] temps obj.temps := hroom.of_subset (by simp)
  have hcopy : ∀ total c₃, c₂.Evolves D₁ c₃ → TermReady c₃ D₁ out.length total →
      (copyBundle total.bits out .unsigned).Yields c₃ fun _ c' =>
        c₁.Evolves D₁ c' ∧ ∀ w ∈ out, c'.Readable w := fun total c₃ hev₃ htotal =>
    Fills.after (copyBundle_fills (hs₂.evolves hev₃) hroom.out_mem hlimit htotal.bits_ne htotal.bits)
      ((hev.of_empty D₁).trans_same hev₃)
  dsimp only
  split
  · exact absurd rfl hne
  · refine .bind (foldlM_accumulate_yields hlimit hroom' hs₂ hterms hshifts) ?_
    rintro total c₃ ⟨hev₃, htotal⟩
    exact hcopy total c₃ hev₃ htotal
  · refine .bind (reduce_yields (P := fun s c' => TermReady c' D₁ out.length s) (k := ShiftedSum.shift)
      (fun _ _ _ h hev => h.evolves hev)
      (fun _ _ _ _ hs hlo hhi hle => accumulate_yields hlimit hroom' hs hlo hhi hle)
      hs₂ hterms hshifts hne) ?_
    rintro total c₃ ⟨hev₃, htotal⟩
    exact hcopy total c₃ hev₃ htotal

/-- **A multiplication runs to the end**, at any widths of its operands and its result. -/
theorem multiply_fills {enc : Encoding} (hblimit : b.length < wireLimit) :
    (multiply a b out obj enc).Fills c D out := by
  unfold multiply
  refine .checked (requireNonempty_eq_ok.mpr (by simp [hane, hbne, hone])) ?_
  refine .checked (requireDistinct_of_ready (ready_pair ha hb) (by simpa using hout)) ?_
  cases enc with
  | unsigned => exact multiplyUnsigned_fills hs hane hbne hone ha hb hout halimit hlimit
  | twosComplement =>
    refine fills_of_room (addTemps_room hs hout (by decide)) fun temps c₁ D₁ hwide hroom => ?_
    have hroom : Room D₁ out temps (max 1 obj.temps) := hroom.mono obj.max_temps_le
    have ha₁ : ∀ w ∈ a, c₁.Ready D₁ w := fun w hw => hwide.ready (ha w hw)
    have hb₁ : ∀ w ∈ b, c₁.Ready D₁ w := fun w hw => hwide.ready (hb w hw)
    refine newMagnitude_yields hwide.site hane ha₁ halimit hroom fun ma c₂ hev hma hmalen => ?_
    refine newMagnitude_yields (hwide.site.evolves hev) hbne (fun w hw => (hb₁ w hw).evolves hev) hblimit
      hroom fun mb c₃ hev₃ hmb hmblen => ?_
    have hev := hev.trans_same hev₃
    -- the magnitudes are multiplied as they are, and the product gets the sign of the operands
    refine newBundle_fills (hwide.site.evolves hev) hlimit (fun product c₄ D₄ hwide₄ hproduct hlen => ?_)
      fun product c₄ hev₄ hproduct hplen => ?_
    · exact multiplyUnsigned_fills hwide₄.site (ne_nil_of_length_eq hmalen hane)
        (ne_nil_of_length_eq hmblen hbne) (ne_nil_of_length_eq hlen hone)
        (fun w hw => hwide₄.ready ((hma w hw).evolves hev₃)) (fun w hw => hwide₄.ready (hmb w hw))
        (fun w hw => (hproduct w hw).1) (hmalen ▸ halimit) (hlen ▸ hlimit)
    have hev := hev.trans_same hev₄
    obtain ⟨sa, hsa, hmsba⟩ := exists_msb hane
    obtain ⟨sb, hsb, hmsbb⟩ := exists_msb hbne
    refine .checked hmsba (.checked hmsbb (.bind (gate_finds (hwide.site.evolves hev) rfl
      ((ha₁ sa hsa).evolves hev) ((hb₁ sb hsb).evolves hev)) ?_))
    rintro sign c₅ ⟨hev₅, hsign⟩
    have hev := hev.trans_same (hev₅.of_empty D₁)
    exact Fills.after (applySign_fills (hwide.site.evolves hev) hone hlimit
      (ne_nil_of_length_eq hplen hone) (fun w hw => (hproduct w hw).evolves hev₅) hroom hsign) hev

end Multiply

/-! ### Division -/

section Trials

variable {remainder : Bundle} (hbne : b ≠ []) (hlimit : b.length + 2 < wireLimit)
  (hroom : Room D [] temps (max 1 obj.temps)) (hlen : remainder.length = b.length)
include hbne hlimit hroom hlen

/-- A trial leaves a quotient bit and a remainder of the width of the divisor. -/
theorem trialStep_yields {bit : Wire} (hs : c.Site D) (hb : ∀ w ∈ b, c.Ready D w)
    (hremainder : ∀ w ∈ remainder, c.Ready D w) (hbit : c.Ready D bit) :
    (trialStep b temps obj remainder bit).Yields c fun p c' => c.Evolves D c' ∧ c'.Ready D p.1 ∧
      p.2.length = b.length ∧ ∀ w ∈ p.2, c'.Ready D w := by
  have hshifted : ∀ w ∈ bit :: remainder, c.Ready D w := List.forall_mem_cons.mpr ⟨hbit, hremainder⟩
  unfold trialStep
  refine newBundle_fills hs hlimit (fun diff c₁ D₁ hwide hdiff hdlen => ?_) fun diff c₁ hev hdiff hdlen => ?_
  · exact addSub_fills hwide.site (by simp) hbne (fun w hw => hwide.ready (hshifted w hw))
      (fun w hw => hwide.ready (hb w hw)) ((hroom.inner hwide.subset hdiff).mono (le_max_right _ _))
      (List.length_pos_iff.mp (by omega)) (hdlen ▸ hlimit)
  have hs₁ := hs.evolves hev
  obtain ⟨borrow, hborrow, hat⟩ := exists_wireAt (b := diff) (i := b.length + 1) (by omega)
  refine .checked hat (.bind (inv_finds hs₁ (hdiff borrow hborrow)) ?_)
  rintro quotientBit c₂ ⟨hev₂, hq⟩
  refine .bind (newBundle_widens (hs₁.evolves hev₂) (n := b.length) (by omega)) ?_
  rintro next c₃ ⟨hnlen, hnew, hwide⟩
  refine .checked (slice_eq_ok.mpr ⟨⟨Nat.zero_le _, by rw [List.length_cons]; omega⟩, rfl⟩) ?_
  refine .checked (slice_eq_ok.mpr ⟨⟨Nat.zero_le _, by omega⟩, rfl⟩) ?_
  rw [List.drop_zero, List.drop_zero]
  have hkept : ((bit :: remainder).take b.length).length = b.length :=
    List.length_take_of_le (by rw [List.length_cons]; omega)
  have hreduced : (diff.take b.length).length = b.length := List.length_take_of_le (by omega)
  refine .bind (selectTo_fills hwide.site (hreduced.trans hkept.symm) (hnlen.trans hkept.symm)
    (fun w hw => hwide.ready (((hshifted w (List.mem_of_mem_take hw)).evolves hev).evolves hev₂))
    (fun w hw => hwide.ready ((hdiff w (List.mem_of_mem_take hw)).evolves hev₂))
    (hwide.ready ((hdiff borrow hborrow).evolves hev₂))
    ((hroom.inner hwide.subset fun w hw => ⟨.inr hw, hnew w hw⟩).mono (le_max_left _ _))) ?_
  rintro u c₄ ⟨hev₄, hnext⟩
  have hev₄ := hwide.evolves_of hev₄
  exact .pure ⟨(hev.trans_same (hev₂.of_empty D)).trans_same hev₄, hq.evolves hev₄, hnlen,
    fun w hw => ⟨hnext w hw, hnew w hw⟩⟩

/-- The trials leave a quotient bit for each bit of the dividend. -/
theorem trials_yields {bits quotient : Bundle} (hs : c.Site D) (hb : ∀ w ∈ b, c.Ready D w)
    (hremainder : ∀ w ∈ remainder, c.Ready D w) (hbits : ∀ w ∈ bits, c.Ready D w)
    (hquotient : ∀ w ∈ quotient, c.Ready D w) :
    (trials b temps obj bits quotient remainder).Yields c fun p c' => c.Evolves D c' ∧
      p.1.length = bits.length + quotient.length ∧ p.2.length = b.length ∧
      (∀ w ∈ p.1, c'.Ready D w) ∧ ∀ w ∈ p.2, c'.Ready D w := by
  induction bits generalizing c quotient remainder with
  | nil => exact .pure ⟨.refl hs.wellFormed D, (Nat.zero_add _).symm, hlen, hquotient, hremainder⟩
  | cons bit bits ih =>
    obtain ⟨hbit, hbits⟩ := List.forall_mem_cons.mp hbits
    rw [trials]
    refine .bind (trialStep_yields hbne hlimit hroom hlen hs hb hremainder hbit) ?_
    rintro ⟨q, next⟩ c₁ ⟨hev, hq, hnlen, hnext⟩
    refine Yields.mono (ih hnlen (hs.evolves hev) (fun w hw => (hb w hw).evolves hev) hnext
      (fun w hw => (hbits w hw).evolves hev)
      (List.forall_mem_cons.mpr ⟨hq, fun w hw => (hquotient w hw).evolves hev⟩)) ?_
    rintro p c₂ ⟨hev', hqlen, hp⟩
    refine ⟨hev.trans_same hev', ?_, hp⟩
    rw [hqlen, List.length_cons, List.length_cons]
    omega

end Trials

section Divide

variable {quot rem : Bundle} (hs : c.Site D) (hane : a ≠ []) (hbne : b ≠ []) (ha : ∀ w ∈ a, c.Ready D w)
  (hb : ∀ w ∈ b, c.Ready D w) (hquot : ∀ w ∈ quot, w ∈ D) (hrem : ∀ w ∈ rem, w ∈ D)
  (hqlimit : quot.length < wireLimit) (hrlimit : rem.length < wireLimit) (hblimit : b.length + 2 < wireLimit)
include hs hane hbne ha hb hquot hrem hqlimit hrlimit hblimit

theorem divideUnsigned_fills : (divideUnsigned a b quot rem obj).Fills c D (quot ++ rem) := by
  have hout : ∀ w ∈ quot ++ rem, w ∈ D := by
    simpa only [List.mem_append, or_imp, forall_and] using And.intro hquot hrem
  unfold divideUnsigned
  refine fills_of_room (divisionTemps_room hs hout) fun temps c₁ D₁ hwide hroom => ?_
  refine .bind (constant_finds hwide.site false) ?_
  rintro zero c₂ ⟨hev, hzero⟩
  have hs₂ := hwide.site.evolves hev
  refine .bind (trials_yields hbne hblimit (hroom.of_subset (by simp)) List.length_replicate hs₂
    (fun w hw => (hwide.ready (hb w hw)).evolves hev)
    (fun w hw => by rwa [List.eq_of_mem_replicate hw])
    (fun w hw => (hwide.ready (ha w (List.mem_reverse.mp hw))).evolves hev) (by simp)) ?_
  rintro ⟨quotient, remainder⟩ c₃ ⟨hev₃, hqlen, hrlen, hq, hr⟩
  have hqne : quotient ≠ [] := ne_nil_of_length_eq (by simpa using hqlen) hane
  have hev := (hev.of_empty D₁).trans_same hev₃
  refine Fills.after (.append (copyBundle_fills (hs₂.evolves hev₃)
    (fun w hw => hwide.subset (hquot w hw)) hqlimit hqne hq) fun c₄ hev₄ _ => ?_) hev
  exact copyBundle_fills ((hs₂.evolves hev₃).evolves hev₄) (fun w hw => hwide.subset (hrem w hw)) hrlimit
    (ne_nil_of_length_eq hrlen hbne) fun w hw => (hr w hw).evolves hev₄

/-- **A division runs to the end** if two bits more than its divisor has fit into a bundle. -/
theorem divide_fills (hqne : quot ≠ []) (hrne : rem ≠ []) (hapart : ∀ w ∈ quot, w ∉ rem)
    (halimit : a.length < wireLimit) : (divide a b quot rem enc obj).Fills c D (quot ++ rem) := by
  have hout : ∀ w ∈ quot ++ rem, w ∈ D := by
    simpa only [List.mem_append, or_imp, forall_and] using And.intro hquot hrem
  have hdistinct : requireDistinct [quot, rem] [a, b] = .ok () :=
    requireDistinct_of_ready (ready_pair ha hb) (by simpa using And.intro hquot hrem)
  unfold divide
  refine .checked (requireNonempty_eq_ok.mpr (by simp [hane, hbne, hqne, hrne])) (.checked hdistinct ?_)
  refine .checked (requireDistinct_eq_ok.mpr (by simpa using hapart)) ?_
  cases enc with
  | unsigned => exact divideUnsigned_fills hs hane hbne ha hb hquot hrem hqlimit hrlimit hblimit
  | twosComplement =>
    refine fills_of_room (divisionTemps_room hs hout) fun temps c₁ D₁ hwide hroom => ?_
    have ha₁ : ∀ w ∈ a, c₁.Ready D₁ w := fun w hw => hwide.ready (ha w hw)
    have hb₁ : ∀ w ∈ b, c₁.Ready D₁ w := fun w hw => hwide.ready (hb w hw)
    obtain ⟨sa, hsa, hmsba⟩ := exists_msb hane
    obtain ⟨sb, hsb, hmsbb⟩ := exists_msb hbne
    refine newMagnitude_yields hwide.site hane ha₁ halimit hroom fun ma c₂ hev hma hmalen => ?_
    refine newMagnitude_yields (hwide.site.evolves hev) hbne (fun w hw => (hb₁ w hw).evolves hev)
      (by omega) hroom fun mb c₃ hev₃ hmb hmblen => ?_
    have hev := hev.trans_same hev₃
    -- both results of the division of the magnitudes are on new wires, which are read from then on
    refine .bind (newBundle_widens (hwide.site.evolves hev) halimit) ?_
    rintro mq c₄ ⟨hmqlen, hmqnew, hwide₄⟩
    refine .bind (newBundle_widens hwide₄.site (n := b.length) (by omega)) ?_
    rintro mr c₅ ⟨hmrlen, hmrnew, hwide₅⟩
    have hwide₅' := hwide₄.trans hwide₅
    refine .bind (divideUnsigned_fills hwide₅.site (ne_nil_of_length_eq hmalen hane)
      (ne_nil_of_length_eq hmblen hbne) (fun w hw => hwide₅'.ready ((hma w hw).evolves hev₃))
      (fun w hw => hwide₅'.ready (hmb w hw)) (fun w hw => .inl (.inr hw)) (fun w hw => .inr hw)
      (hmqlen ▸ halimit) (by omega) (by omega)) ?_
    rintro u c₆ ⟨hev₆, hresults⟩
    have hev₆ := hwide₅'.evolves_of hev₆
    have hev := hev.trans_same hev₆
    have hmq : ∀ w ∈ mq, c₆.Ready D₁ w := fun w hw =>
      ⟨hresults w (List.mem_append_left _ hw), hmqnew w hw⟩
    have hmr : ∀ w ∈ mr, c₆.Ready D₁ w := fun w hw =>
      ⟨hresults w (List.mem_append_right _ hw), fun hD => hmrnew w hw (.inl hD)⟩
    refine .checked hmsba (.checked hmsbb (.bind (gate_finds (hwide.site.evolves hev) rfl
      ((ha₁ sa hsa).evolves hev) ((hb₁ sb hsb).evolves hev)) ?_))
    rintro sign c₇ ⟨hev₇, hsign⟩
    have hs₇ := (hwide.site.evolves hev).evolves hev₇
    refine Fills.after (.append (applySign_fills hs₇ hqne hqlimit (ne_nil_of_length_eq hmqlen hane)
      (fun w hw => (hmq w hw).evolves hev₇) (hroom.of_subset fun w hw => List.mem_append_left _ hw) hsign)
      fun c₈ hev₈ _ => ?_) (hev.trans_same (hev₇.of_empty D₁))
    exact .checked hmsba (applySign_fills (hs₇.evolves hev₈) hrne hrlimit (ne_nil_of_length_eq hmrlen hbne)
      (fun w hw => ((hmr w hw).evolves hev₇).evolves hev₈)
      (hroom.of_subset fun w hw => List.mem_append_right _ hw)
      ((((ha₁ sa hsa).evolves hev).evolves hev₇).evolves hev₈))

end Divide

end Build
end BitCircuit
