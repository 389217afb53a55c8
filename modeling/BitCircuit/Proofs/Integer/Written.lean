/-
# Operations on integers write to their results

Every operation on integers writes to each wire of its results (`Build.Writes`), unless it is refused.
It may allocate wires before it does, so the wire it is handed may be one of its own by then.

Key theorems: one `writes_…` for each operation.
-/
import BitCircuit.Proofs.Written
import BitCircuit.Proofs.Integer.Upkeep

namespace BitCircuit
namespace Build

variable {w : Wire} {enc : Encoding} {dir : Direction} {obj : Objective}

/-! ### Bit by bit -/

theorem writes_complement {a out : Bundle} (hw : w ∈ out) : Writes (complement a out) w := by
  unfold complement
  refine .after fun _ => .after fun _ => .after fun x => ?_
  exact .forM_inStep hw (fun x => writes_invTo x w) fun p => keepsWritable_invTo

theorem writes_bitwise {kind : GateKind} {a b out : Bundle} (hw : w ∈ out) :
    Writes (bitwise kind a b out enc) w := by
  unfold bitwise
  refine .after fun _ => .after fun _ => .after fun x => .after fun y => .after fun xy => ?_
  exact .forM_inStep hw (fun p => writes_gateTo kind p.1 p.2 w) fun p => keepsWritable_gateTo

theorem writes_selectTo {ifTrue ifFalse choice out temps : Bundle} (hw : w ∈ out) :
    Writes (selectTo ifTrue ifFalse choice out temps) w := by
  unfold selectTo
  refine .after fun _ => .after fun _ => .after fun _ => .after fun _ => ?_
  refine .after fun _ => .after fun _ => .after fun spare => .after fun chosen => .after fun tf => ?_
  refine .forM_inStep hw (fun p => ?_) fun p => ?_
  · exact .after fun _ => .after fun _ => writes_gateTo .xor spare p.2 w
  · exact .after keepsWritable_gateTo fun _ => .after keepsWritable_gateTo fun _ => keepsWritable_gateTo

theorem writes_copyBundle {source out : Bundle} (hw : w ∈ out) :
    Writes (copyBundle source out enc) w := by
  unfold copyBundle
  refine .after fun x => ?_
  exact .forM_inStep hw (fun x => writes_copyTo x w) fun p => keepsWritable_copyTo

/-! ### The ripple-carry adder -/

section Ripple

variable {carry spare : Wire}

theorem writes_rippleLowest {col : AdderColumn} {more : Bool} (h : col.target = some w) :
    Writes (rippleLowest dir carry spare col more) w := by
  unfold rippleLowest
  rw [h]
  refine .kept (writes_gateTo .xor col.x col.y w) fun _ => ?_
  split
  · cases dir with
    | addition => exact keepsWritable_gateTo
    | subtraction => exact .after keepsWritable_invTo fun _ => keepsWritable_gateTo
  · exact .pure trivial

theorem writes_rippleColumn {col : AdderColumn} {more : Bool} (h : col.target = some w) :
    Writes (rippleColumn dir carry spare col more) w := by
  unfold rippleColumn
  refine .after fun c => ?_
  rw [h]
  rcases c.knownBit dir col.x col.y with ⟨x, y, known⟩
  cases known with
  | some v =>
    refine .kept (writes_gateTo _ x carry w) fun _ => ?_
    split
    · exact keepsWritable_gateTo
    · exact .pure trivial
  | none =>
    refine .after fun _ => .kept (writes_gateTo .xor spare carry w) fun _ => ?_
    split
    · exact .after keepsWritable_gateTo fun _ => .after keepsWritable_gateTo fun _ => keepsWritable_gateTo
    · exact .pure trivial

theorem keepsWritable_rippleColumns (cols : List AdderColumn) :
    Keeps (fun c => c.Writable w) (rippleColumns dir carry spare cols) fun _ => True :=
  inPlace_rippleColumns (Circuit.upheld_writable w).inPlace (Set.mem_univ carry) (Set.mem_univ spare) cols
    fun _ _ _ _ => Set.mem_univ _

theorem writes_rippleColumns {col : AdderColumn} (h : col.target = some w) :
    ∀ {cols : List AdderColumn}, col ∈ cols → Writes (rippleColumns dir carry spare cols) w
  | col' :: rest, hmem => by
    rw [rippleColumns]
    rcases List.mem_cons.mp hmem with rfl | hmem
    · exact .kept (writes_rippleColumn h) fun _ => keepsWritable_rippleColumns rest
    · exact .after fun _ => writes_rippleColumns h hmem

end Ripple

theorem exists_column_of_mem_wires {x y : Bundle} {sink : Sink} {cols : List AdderColumn}
    (h : adderColumns x y sink.targets = .ok cols) (hw : w ∈ sink.wires) :
    ∃ col ∈ cols, col.target = some w := by
  obtain ⟨xy, -, h⟩ := bind_eq_ok.mp h
  obtain ⟨l, hl, h⟩ := bind_eq_ok.mp h
  cases h
  obtain ⟨hlen, rfl⟩ := inStep_eq_ok.mp hl
  have hmem : some w ∈ (xy.zip sink.targets).map Prod.snd := by
    rw [List.map_snd_zip hlen.ge]
    exact some_mem_targets.mpr hw
  obtain ⟨p, hp, hpw⟩ := List.mem_map.mp hmem
  exact ⟨_, List.mem_map.mpr ⟨p, hp, rfl⟩, hpw⟩

theorem writes_ripple {a b temps : Bundle} {sink : Sink} (hw : w ∈ sink.wires) :
    Writes (ripple a b sink temps enc dir) w := by
  unfold ripple
  refine .after fun _ => .after fun _ => .after fun width => .after fun x => .after fun y => ?_
  refine .after fun carry => .after fun spare => .checked fun cols hcols => ?_
  obtain ⟨col, hcol, htarget⟩ := exists_column_of_mem_wires hcols hw
  cases cols with
  | nil => cases hcol
  | cons lowest rest =>
    rcases List.mem_cons.mp hcol with rfl | hcol
    · exact .kept (writes_rippleLowest htarget) fun _ => keepsWritable_rippleColumns rest
    · exact .after fun _ => writes_rippleColumns htarget hcol

theorem writes_addRipple {a b out temps : Bundle} (hw : w ∈ out) :
    Writes (addRipple a b out temps enc dir) w := by
  unfold addRipple
  exact .after fun _ => writes_ripple hw

/-! ### The carry-lookahead adder -/

theorem writes_driveLowest {targets : List (Option Wire)} {p : Bundle} :
    Writes (driveLowest dir (some w :: targets) p) w := by
  cases p with
  | nil => exact .throw
  | cons x p =>
    cases dir with
    | addition => exact writes_copyTo x w
    | subtraction => exact writes_invTo x w

/-- The sum bits above the lowest one are driven from the carries. -/
theorem writes_driveUpper_all {p out : Bundle} {spans : List Span} (hw : w ∈ out.tail) :
    Writes (driveUpper p spans (.all out)) w := by
  unfold driveUpper
  refine .after fun carries => .after fun pc => ?_
  exact .forM_inStep hw (fun q => writes_gateTo .xor q.1 q.2 w) fun q => keepsWritable_gateTo

theorem writes_driveUpper_bit {p : Bundle} {spans : List Span} (position : Nat) :
    Writes (driveUpper p spans (.bit (position + 1) w)) w := by
  unfold driveUpper
  exact .after fun carry => .after fun x => writes_gateTo .xor x carry w

theorem writes_lookahead {a b : Bundle} {sink : Sink} (hw : w ∈ sink.wires) :
    Writes (lookahead a b sink enc dir) w := by
  have hI := Circuit.upheld_writable w
  unfold lookahead
  refine .after fun width => .after fun x => .after fun y => .after fun y => ?_
  refine .after fun columns => .after fun p => .after fun g => ?_
  have hupper : ∀ gp : List (Wire × Wire), Keeps (fun c => c.Writable w)
      (driveUpper p (gp.map fun q => ⟨q.1, q.2⟩) sink) fun _ => True := fun gp =>
    keeps_driveUpper hI fun _ _ => Set.mem_univ _
  cases sink with
  | all out =>
    cases out with
    | nil => cases hw
    | cons lowest rest =>
      rcases List.mem_cons.mp hw with rfl | hw
      · exact .kept writes_driveLowest fun _ => .after .checked hupper
      · exact .after fun _ => .after fun gp => writes_driveUpper_all hw
  | bit position out =>
    cases List.mem_singleton.mp hw
    cases position with
    | zero => exact .kept writes_driveLowest fun _ => .after .checked hupper
    | succ position => exact .after fun _ => .after fun gp => writes_driveUpper_bit position

theorem writes_addLookahead {a b out : Bundle} (hw : w ∈ out) :
    Writes (addLookahead a b out enc dir) w := by
  unfold addLookahead
  exact .after fun _ => writes_lookahead hw

/-! ### Sums, equality and order -/

theorem writes_addSub {a b out temps : Bundle} (hw : w ∈ out) :
    Writes (addSub dir a b out temps enc obj) w := by
  cases obj with
  | size => exact writes_addRipple hw
  | depth => exact writes_addLookahead hw

/-- The one wire of a bundle. -/
theorem Writes.of_wireAt {out : Bundle} {f : Wire → Build Unit} (hlen : out.length = 1) (hw : w ∈ out)
    (hf : Writes (f w) w) : Writes (liftM (out.wireAt 0) >>= f) w := by
  obtain ⟨o, rfl⟩ := List.length_eq_one_iff.mp hlen
  cases List.mem_singleton.mp hw
  refine .checked fun o ho => ?_
  cases ho
  exact hf

theorem writes_sumBit {a b out temps : Bundle} {position : Nat} (hw : w ∈ out) :
    Writes (sumBit a b out temps position enc dir obj) w := by
  unfold sumBit
  refine .checked fun _ hlen => .of_wireAt (requireWidth_eq_ok.mp hlen) hw (.after fun _ => ?_)
  have hsink : w ∈ (Sink.bit position w).wires := List.mem_singleton_self w
  cases obj with
  | size => exact writes_ripple hsink
  | depth => exact writes_lookahead hsink

theorem writes_isZero {a out : Bundle} (hw : w ∈ out) : Writes (isZero a out) w := by
  unfold isZero
  refine .checked fun _ hlen => .after fun _ => .after fun any => ?_
  exact .of_wireAt (requireWidth_eq_ok.mp hlen) hw (writes_invTo any w)

/-- What an operation does with the wire that says whether its operands differ. -/
theorem Writes.of_differ {a b out : Bundle} {f : Wire → Wire → Build Unit} (hw : w ∈ out)
    (hf : ∀ any, Writes (f any w) w) :
    Writes (differ a b out >>= fun any => liftM (out.wireAt 0) >>= f any) w := by
  unfold differ
  intro c u c' h
  obtain ⟨any, c₁, hdiffer, h⟩ := exec_bind_eq_ok.mp h
  obtain ⟨_, hlen, -⟩ := exec_check_bind.mp hdiffer
  exact Writes.of_wireAt (requireWidth_eq_ok.mp hlen) hw (hf any) h

theorem writes_equal {a b out : Bundle} (hw : w ∈ out) : Writes (equal a b out) w :=
  .of_differ hw fun any => writes_invTo any w

theorem writes_notEqual {a b out : Bundle} (hw : w ∈ out) : Writes (notEqual a b out) w :=
  .of_differ hw fun any => writes_copyTo any w

theorem writes_lessThan {a b out : Bundle} (hw : w ∈ out) : Writes (lessThan a b out enc obj) w := by
  unfold lessThan
  exact .after fun _ => .after fun _ => .after fun temps => writes_sumBit hw

theorem writes_atLeast {a b out : Bundle} (hw : w ∈ out) : Writes (atLeast a b out enc obj) w := by
  unfold atLeast
  refine .checked fun _ hlen => .after fun less => .after fun _ => .after fun l => ?_
  exact .of_wireAt (requireWidth_eq_ok.mp hlen) hw (writes_invTo l w)

/-! ### Sign and magnitude -/

theorem writes_negate {a out temps : Bundle} (hw : w ∈ out) : Writes (negate a out temps obj) w := by
  unfold negate
  exact .after fun _ => .after fun x => .after fun inverted => .after fun one => writes_addSub hw

theorem writes_magnitude {a out temps : Bundle} (hw : w ∈ out) :
    Writes (magnitude a out temps obj) w := by
  unfold magnitude
  refine .after fun _ => .after fun _ => .after fun sign => .after fun negated => .after fun _ => ?_
  split
  · exact writes_selectTo hw
  · exact .after fun absolute => .after fun _ => writes_copyBundle hw

theorem writes_applySign {a sign out temps : Bundle} (hw : w ∈ out) :
    Writes (applySign a sign out temps obj) w := by
  unfold applySign
  refine .after fun _ => .after fun _ => .after fun absolute => .after fun negated => .after fun _ => ?_
  exact writes_selectTo hw

/-! ### Products and quotients -/

theorem writes_multiplyUnsigned {a b out : Bundle} (hw : w ∈ out) :
    Writes (multiplyUnsigned a b out obj) w := by
  unfold multiplyUnsigned
  refine .after fun temps => .after fun terms => ?_
  dsimp only
  split <;> exact .after fun total => writes_copyBundle hw

theorem writes_multiply {a b out : Bundle} (hw : w ∈ out) : Writes (multiply a b out obj enc) w := by
  unfold multiply
  refine .after fun _ => .after fun _ => ?_
  cases enc with
  | unsigned => exact writes_multiplyUnsigned hw
  | twosComplement =>
    refine .after fun temps => .after fun ma => .after fun _ => .after fun mb => .after fun _ => ?_
    refine .after fun product => .after fun _ => .after fun sa => .after fun sb => .after fun sign => ?_
    exact writes_applySign hw

theorem writes_divideUnsigned {a b quot rem : Bundle} (hw : w ∈ quot ∨ w ∈ rem) :
    Writes (divideUnsigned a b quot rem obj) w := by
  have hI := (Circuit.upheld_writable w).inPlace
  unfold divideUnsigned
  refine .after fun temps => .after fun zero => .after fun p => ?_
  rcases hw with hw | hw
  · exact .kept (writes_copyBundle hw) fun _ => inPlace_copyBundle hI fun _ _ => Set.mem_univ _
  · exact .after fun _ => writes_copyBundle hw

theorem writes_divide {a b quot rem : Bundle} (hw : w ∈ quot ∨ w ∈ rem) :
    Writes (divide a b quot rem enc obj) w := by
  have hI := Circuit.upheld_writable w
  unfold divide
  refine .after fun _ => .after fun _ => .after fun _ => ?_
  cases enc with
  | unsigned => exact writes_divideUnsigned hw
  | twosComplement =>
    refine .after fun temps => .after fun ma => .after fun _ => .after fun mb => .after fun _ => ?_
    refine .after fun mq => .after fun mr => .after fun _ => .after fun sa => .after fun sb => ?_
    refine .after fun sign => ?_
    rcases hw with hw | hw
    · refine .kept (writes_applySign hw) fun _ => .after .checked fun sa => ?_
      exact keeps_applySign hI (fun _ _ => Set.mem_univ _) fun _ _ => Set.mem_univ _
    · exact .after fun _ => .after fun sa => writes_applySign hw

/-! ### Results apart from the wires that are allocated -/

section

variable {c c' : Circuit}

/-- An inverter makes no other wire writable than the one it returns. -/
theorem writable_of_inv {x v : Wire} (h : (inv x).exec c = (.ok v, c')) (hw : c'.Writable w) :
    w = v ∨ c.Writable w := by
  unfold inv at h
  obtain ⟨-, h⟩ := exec_requireReadable_bind.mp h
  rw [exec_get_bind] at h
  cases hv : c.constantValue? x with
  | some b =>
    rw [hv, exec_constant] at h
    cases hb : c.constantWire? !b with
    | some u =>
      rw [hb] at h
      cases h
      exact .inr hw
    | none =>
      rw [hb] at h
      cases h
      exact .inr (Circuit.writable_addConstant hw)
  | none =>
    rw [hv] at h
    obtain ⟨out, c₁, hnew, h⟩ := exec_bind_eq_ok.mp h
    obtain ⟨u, c₂, hdrive, h⟩ := exec_bind_eq_ok.mp h
    obtain ⟨rfl, rfl⟩ := exec_pure_eq_ok.mp h
    obtain ⟨hg, rfl⟩ := exec_drive_eq_ok.mp hdrive
    rw [exec_newWire, Circuit.addWire_eq] at hnew
    cases hnew
    have hc₁ := Circuit.writable_addWires (Circuit.writable_pushGate hg hw)
    rwa [Circuit.nextBundle_one, List.mem_singleton] at hc₁

theorem writable_of_mapM_inv : ∀ {xs inverted : Bundle} {c c' : Circuit},
    (xs.mapM inv).exec c = (.ok inverted, c') → c'.Writable w → w ∈ inverted ∨ c.Writable w
  | [], _, _, _, h, hw => by
    rw [List.mapM_nil] at h
    obtain ⟨rfl, rfl⟩ := exec_pure_eq_ok.mp h
    exact .inr hw
  | x :: xs, _, c, _, h, hw => by
    rw [List.mapM_cons] at h
    obtain ⟨v, c₁, hinv, h⟩ := exec_bind_eq_ok.mp h
    obtain ⟨vs, c₂, hrest, h⟩ := exec_bind_eq_ok.mp h
    obtain ⟨rfl, rfl⟩ := exec_pure_eq_ok.mp h
    rcases writable_of_mapM_inv hrest hw with hw | hw
    · exact .inl (List.mem_cons_of_mem v hw)
    · refine (writable_of_inv hinv hw).imp_left ?_
      rintro rfl
      exact List.mem_cons_self

/-- A negation by the ripple-carry chain adds to a complement on wires of its own, and no operand of
an adder may be one of its results. -/
theorem negate_size_refuses {a out temps : Bundle} (hw : w ∈ out) (hc : ¬ c.Writable w) :
    ∃ e, (negate a out temps .size).Refuses c e := by
  have hI := Circuit.upheldInPlace_not_writable w
  apply exists_refuses
  intro u c' h
  unfold negate at h
  obtain ⟨_, -, h⟩ := exec_check_bind.mp h
  obtain ⟨x, c₁, hx, h⟩ := exec_bind_eq_ok.mp h
  obtain ⟨inverted, c₂, hinv, h⟩ := exec_bind_eq_ok.mp h
  obtain ⟨one, c₃, hone, hadd⟩ := exec_bind_eq_ok.mp h
  have hout : w ∉ inverted := by
    obtain ⟨_, hop, -⟩ := exec_check_bind.mp hadd
    exact (requireOperands_eq_ok hop w hw).1
  have hc₁ : ¬ c₁.Writable w := (inPlace_extend hI _ _ _).of_exec hx hc
  have hc₂ : ¬ c₂.Writable w := fun h₂ => (writable_of_mapM_inv hinv h₂).elim hout hc₁
  have hc₃ : ¬ c₃.Writable w := (inPlace_constant hI true).of_exec hone hc₂
  refine Keeps.of_exec (inPlace_addRipple hI ?_ ?_) hadd hc₃ (writes_addRipple hw hadd)
  · exact fun _ _ => Set.mem_univ _
  · exact fun _ _ => Set.mem_univ _

/-- No temporary of a ripple-carry chain may be one of its results. -/
theorem not_mem_temps_of_sumBit {a b out temps : Bundle} {position : Nat} {u : Unit}
    (h : (sumBit a b out temps position enc dir .size).exec c = (.ok u, c')) (hw : w ∈ out) :
    w ∉ temps := by
  unfold sumBit at h
  obtain ⟨_, hlen, h⟩ := exec_check_bind.mp h
  obtain ⟨o, ho, h⟩ := exec_check_bind.mp h
  obtain ⟨_, -, h⟩ := exec_check_bind.mp h
  unfold ripple at h
  obtain ⟨_, -, h⟩ := exec_check_bind.mp h
  obtain ⟨_, hdistinct, -⟩ := exec_check_bind.mp h
  rw [eq_singleton_of_wireAt hlen ho] at hw
  intro htemps
  exact requireDistinct_eq_ok.mp hdistinct temps (by simp) [o] (by simp [Sink.wires]) w htemps hw

theorem lessThan_size_refuses {a b out : Bundle} (hw : w ∈ out) (hc : ¬ c.Writable w) :
    ∃ e, (lessThan a b out enc .size).Refuses c e := by
  have hI := Circuit.upheldInPlace_not_writable w
  apply exists_refuses
  intro u c' h
  unfold lessThan at h
  obtain ⟨_, -, h⟩ := exec_check_bind.mp h
  obtain ⟨_, -, h⟩ := exec_check_bind.mp h
  obtain ⟨temps, c₁, htemps, hbit⟩ := exec_bind_eq_ok.mp h
  have hc₁ : ¬ c₁.Writable w := by
    intro h₁
    obtain ⟨-, rfl, rfl⟩ := Circuit.addTemps_eq_ok htemps
    exact (Circuit.writable_addWires h₁).elim (not_mem_temps_of_sumBit hbit hw) hc
  refine Keeps.of_exec (inPlace_sumBit hI ?_ ?_) hbit hc₁ (writes_sumBit hw hbit)
  · exact fun _ _ => Set.mem_univ _
  · exact fun _ _ => Set.mem_univ _

end

end Build
end BitCircuit
