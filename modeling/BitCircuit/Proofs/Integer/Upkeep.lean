/-
# What operations on integers keep

Every operation on integers keeps what the steps of operations keep (`Upheld`), if the wires it
is to write to are free: its results and the temporaries that it is given. Those that work bit by bit
and the ripple-carry adder work in place and keep more (`UpheldInPlace`).

Key theorems: one `inPlace_…` or `keeps_…` for each operation.
-/
import BitCircuit.Integer.Order
import BitCircuit.Integer.Product
import BitCircuit.Integer.Quotient
import BitCircuit.Proofs.Upkeep

namespace BitCircuit
namespace Build

variable {α : Type} {I : Circuit → Prop} {free : Set Wire}

/-! ### In place -/

section InPlace

variable (hI : UpheldInPlace I free)
include hI

theorem inPlace_extend (enc : Encoding) (n : Nat) (a : Bundle) :
    Keeps I (extend enc n a) fun _ => True := by
  unfold extend
  split
  · exact .pure trivial
  · refine .after (Q := fun _ => True) ?_ fun _ => .after .checked fun _ => .pure trivial
    cases enc with
    | twosComplement => exact .checked
    | unsigned => exact inPlace_constant hI false

theorem inPlace_complement {a out : Bundle} (hout : ∀ w ∈ out, w ∈ free) :
    Keeps I (complement a out) fun _ => True := by
  unfold complement
  refine .after .checked fun _ => .after .checked fun _ => .after (inPlace_extend hI _ _ _) fun x => ?_
  refine .bind (.check fun _ h => mem_of_inStep h) fun l hl => .forM fun p hp => ?_
  exact inPlace_invTo hI (hout _ (hl p hp).2)

theorem inPlace_bitwise {kind : GateKind} {a b out : Bundle} {enc : Encoding}
    (hout : ∀ w ∈ out, w ∈ free) : Keeps I (bitwise kind a b out enc) fun _ => True := by
  unfold bitwise
  refine .after .checked fun _ => .after .checked fun _ => ?_
  refine .after (inPlace_extend hI _ _ _) fun x => .after (inPlace_extend hI _ _ _) fun y => ?_
  refine .after .checked fun xy => .bind (.check fun _ h => mem_of_inStep h) fun l hl => .forM fun p hp => ?_
  exact inPlace_gateTo hI (hout _ (hl p hp).2)

theorem inPlace_selectTo {ifTrue ifFalse choice out temps : Bundle} (hout : ∀ w ∈ out, w ∈ free)
    (htemps : ∀ w ∈ temps, w ∈ free) :
    Keeps I (selectTo ifTrue ifFalse choice out temps) fun _ => True := by
  unfold selectTo
  refine .after .checked fun _ => .after .checked fun _ => .after .checked fun _ => ?_
  refine .after .checked fun _ => .after .checked fun _ => .after .checked fun _ => ?_
  refine .bind (.check fun _ h => htemps _ (mem_of_wireAt h)) fun spare hspare => ?_
  refine .after .checked fun chosen => .after .checked fun tf => ?_
  refine .bind (.check fun _ h => mem_of_inStep h) fun l hl => .forM fun p hp => ?_
  refine .after (inPlace_gateTo hI hspare) fun _ => .after (inPlace_gateTo hI hspare) fun _ => ?_
  exact inPlace_gateTo hI (hout _ (hl p hp).2)

theorem inPlace_copyBundle {source out : Bundle} {enc : Encoding} (hout : ∀ w ∈ out, w ∈ free) :
    Keeps I (copyBundle source out enc) fun _ => True := by
  unfold copyBundle
  refine .after (inPlace_extend hI _ _ _) fun x => ?_
  refine .bind (.check fun _ h => mem_of_inStep h) fun l hl => .forM fun p hp => ?_
  exact inPlace_copyTo hI (hout _ (hl p hp).2)

theorem inPlace_driveTarget {kind : GateKind} {x y : Wire} {target : Option Wire}
    (h : ∀ w ∈ target, w ∈ free) : Keeps I (driveTarget kind x y target) fun _ => True := by
  cases target with
  | none => exact .pure trivial
  | some out => exact inPlace_gateTo hI (h out rfl)

section Ripple

variable {dir : Direction} {carry spare : Wire} (hcarry : carry ∈ free) (hspare : spare ∈ free)
include hcarry hspare

theorem inPlace_rippleLowest {col : AdderColumn} {more : Bool}
    (h : ∀ w ∈ col.target, w ∈ free) :
    Keeps I (rippleLowest dir carry spare col more) fun _ => True := by
  unfold rippleLowest
  refine .after (inPlace_driveTarget hI h) fun _ => ?_
  split
  · cases dir with
    | addition => exact inPlace_gateTo hI hcarry
    | subtraction => exact .after (inPlace_invTo hI hspare) fun _ => inPlace_gateTo hI hcarry
  · exact .pure trivial

omit hspare in
theorem inPlace_rippleKnown {bit more : Bool} {x : Wire} {target : Option Wire}
    (h : ∀ w ∈ target, w ∈ free) : Keeps I (rippleKnown bit carry x target more) fun _ => True := by
  unfold rippleKnown
  refine .after (inPlace_driveTarget hI h) fun _ => ?_
  split
  · exact inPlace_gateTo hI hcarry
  · exact .pure trivial

theorem inPlace_rippleFull {x y : Wire} {target : Option Wire} {more : Bool}
    (h : ∀ w ∈ target, w ∈ free) :
    Keeps I (rippleFull dir carry spare x y target more) fun _ => True := by
  unfold rippleFull
  refine .after (inPlace_gateTo hI hspare) fun _ => .after (inPlace_driveTarget hI h) fun _ => ?_
  split
  · refine .after (inPlace_gateTo hI hcarry) fun _ => ?_
    exact .after (inPlace_gateTo hI hcarry) fun _ => inPlace_gateTo hI hcarry
  · exact .pure trivial

theorem inPlace_rippleColumn {col : AdderColumn} {more : Bool}
    (h : ∀ w ∈ col.target, w ∈ free) :
    Keeps I (rippleColumn dir carry spare col more) fun _ => True := by
  unfold rippleColumn
  refine .of_get fun c hc => ?_
  rcases c.knownBit dir col.x col.y with ⟨x, y, known⟩
  cases known with
  | some v => exact inPlace_rippleKnown hI hcarry h c hc
  | none => exact inPlace_rippleFull hI hcarry hspare h c hc

theorem inPlace_rippleColumns : ∀ (cols : List AdderColumn),
    (∀ col ∈ cols, ∀ w ∈ col.target, w ∈ free) →
    Keeps I (rippleColumns dir carry spare cols) fun _ => True
  | [], _ => .pure trivial
  | col :: rest, h => by
    rw [rippleColumns]
    refine .after (inPlace_rippleColumn hI hcarry hspare (h col List.mem_cons_self)) fun _ => ?_
    exact inPlace_rippleColumns rest fun col' hcol' => h col' (List.mem_cons_of_mem col hcol')

end Ripple

omit hI in
theorem mem_of_adderColumns {x y : Bundle} {targets : List (Option Wire)} {cols : List AdderColumn}
    (h : adderColumns x y targets = .ok cols) : ∀ col ∈ cols, col.target ∈ targets := by
  unfold adderColumns at h
  obtain ⟨xy, -, h⟩ := bind_eq_ok.mp h
  obtain ⟨l, hl, h⟩ := bind_eq_ok.mp h
  cases h
  intro col hcol
  obtain ⟨p, hp, rfl⟩ := List.mem_map.mp hcol
  exact (mem_of_inStep hl p hp).2

theorem inPlace_ripple {a b temps : Bundle} {sink : Sink} {enc : Encoding} {dir : Direction}
    (hsink : ∀ w ∈ sink.wires, w ∈ free) (htemps : ∀ w ∈ temps, w ∈ free) :
    Keeps I (ripple a b sink temps enc dir) fun _ => True := by
  unfold ripple
  refine .after .checked fun _ => .after .checked fun _ => .after .checked fun width => ?_
  refine .after (inPlace_extend hI _ _ _) fun x => .after (inPlace_extend hI _ _ _) fun y => ?_
  refine .bind (.check fun _ h => htemps _ (mem_of_wireAt h)) fun carry hcarry => ?_
  refine .bind (.check fun _ h => htemps _ (mem_of_wireAt h)) fun spare hspare => ?_
  refine .bind (.check fun _ h => mem_of_adderColumns h) fun cols hcols => ?_
  have htarget : ∀ col ∈ cols, ∀ w ∈ col.target, w ∈ free := fun col hcol w hw =>
    hsink w (mem_of_targets (hcols col hcol) w hw)
  cases cols with
  | nil => exact .throw
  | cons lowest rest =>
    refine .after (inPlace_rippleLowest hI hcarry hspare (htarget lowest List.mem_cons_self)) fun _ => ?_
    exact inPlace_rippleColumns hI hcarry hspare rest fun col hcol =>
      htarget col (List.mem_cons_of_mem lowest hcol)

theorem inPlace_addRipple {a b out temps : Bundle} {enc : Encoding} {dir : Direction}
    (hout : ∀ w ∈ out, w ∈ free) (htemps : ∀ w ∈ temps, w ∈ free) :
    Keeps I (addRipple a b out temps enc dir) fun _ => True := by
  unfold addRipple
  exact .after .checked fun _ => inPlace_ripple hI hout htemps

/-- A single bit of a sum by the ripple-carry chain. -/
theorem inPlace_sumBit {a b out temps : Bundle} {position : Nat} {enc : Encoding} {dir : Direction}
    (hout : ∀ w ∈ out, w ∈ free) (htemps : ∀ w ∈ temps, w ∈ free) :
    Keeps I (sumBit a b out temps position enc dir .size) fun _ => True := by
  unfold sumBit
  refine .after .checked fun _ => .bind (.check fun _ h => hout _ (mem_of_wireAt h)) fun o ho => ?_
  exact .after .checked fun _ => inPlace_ripple hI (fun w hw => List.mem_singleton.mp hw ▸ ho) htemps

end InPlace

section

variable (hI : Upheld I free)
include hI

/-! ### Temporaries -/

theorem keeps_adderTemps (obj : Objective) :
    Keeps I (adderTemps obj) fun b => ∀ w ∈ b, w ∈ free := by
  cases obj with
  | size => exact keeps_addTemps hI 2
  | depth => exact .pure (by simp)

theorem keeps_divisionTemps (obj : Objective) :
    Keeps I (divisionTemps obj) fun b => ∀ w ∈ b, w ∈ free := by
  cases obj with
  | size => exact keeps_addTemps hI 2
  | depth => exact keeps_addTemps hI 1

/-! ### New wires bit by bit -/

theorem keeps_select {ifTrue ifFalse : Bundle} {choice : Wire} :
    Keeps I (select ifTrue ifFalse choice) fun _ => True := by
  unfold select
  refine .after .checked fun _ => (Keeps.mapM (R := fun _ => True) fun p _ => ?_).any
  exact .after (keeps_gate hI) fun _ => .after (keeps_gate hI) fun _ => keeps_gate hI

/-! ### Balanced reduction -/

omit hI in
theorem keeps_joinPairs {join : Bool → α → α → Build α}
    (hj : ∀ b lo hi, Keeps I (join b lo hi) fun _ => True) : ∀ (lowest : Bool) (parts : List α),
    Keeps I (joinPairs join lowest parts) fun _ => True
  | _, [] => .pure trivial
  | _, [_] => .pure trivial
  | lowest, lo :: hi :: rest => by
    rw [joinPairs]
    refine .after (hj lowest lo hi) fun joined => ?_
    exact .after (keeps_joinPairs hj false rest) fun _ => .pure trivial

omit hI in
theorem keeps_joinLevels {join : Bool → α → α → Build α}
    (hj : ∀ b lo hi, Keeps I (join b lo hi) fun _ => True) : ∀ (levels : Nat) (parts : List α),
    Keeps I (joinLevels join levels parts) fun _ => True
  | 0, _ => .pure trivial
  | _ + 1, [] => .pure trivial
  | _ + 1, [_] => .pure trivial
  | levels + 1, lo :: hi :: rest => by
    rw [joinLevels]
    exact .after (keeps_joinPairs hj true _) fun parts => keeps_joinLevels hj levels parts

omit hI in
theorem keeps_reduce {join : Bool → α → α → Build α}
    (hj : ∀ b lo hi, Keeps I (join b lo hi) fun _ => True) (parts : List α) :
    Keeps I (reduce join parts) fun _ => True := by
  unfold reduce
  refine .after (keeps_joinLevels hj _ _) fun parts => ?_
  cases parts with
  | nil => exact .throw
  | cons joined rest => exact .pure trivial

theorem keeps_orAll (ws : Bundle) : Keeps I (orAll ws) fun _ => True :=
  keeps_reduce (fun _ _ _ => keeps_gate hI) ws

/-! ### Adders -/

theorem keeps_propagateBoth {skip : Bool} {unused : Wire} {lo hi : Span} :
    Keeps I (propagateBoth skip unused lo hi) fun _ => True := by
  unfold propagateBoth
  split
  · exact .pure trivial
  · exact keeps_gate hI

theorem keeps_joinStride : ∀ (his los below : List Span),
    Keeps I (joinStride his los below) fun _ => True
  | [], _, _ => .pure trivial
  | _ :: _, [], _ => .pure trivial
  | hi :: his, lo :: los, below => by
    rw [joinStride]
    refine .after (keeps_gate hI) fun t => .after (keeps_gate hI) fun g => ?_
    refine .after (keeps_propagateBoth hI) fun p => ?_
    exact .after (keeps_joinStride his los below.tail) fun _ => .pure trivial

theorem keeps_koggeStone (spans : List Span) : Keeps I (koggeStone spans) fun _ => True := by
  unfold koggeStone
  refine .after (Q := fun _ => True) ?_ fun _ => .pure trivial
  exact .foldlM trivial fun d _ top _ => keeps_joinStride hI _ _ _

theorem keeps_topCarry (spans : List Span) : Keeps I (topCarry spans) fun _ => True := by
  unfold topCarry
  refine .after (keeps_reduce (fun lowest lo hi => ?_) spans) fun _ => .pure trivial
  unfold joinSpans
  refine .after (keeps_gate hI) fun t => .after (keeps_gate hI) fun g => ?_
  exact .after (keeps_propagateBoth hI) fun p => .pure trivial

theorem keeps_generateBits (dir : Direction) (columns : List (Wire × Wire)) :
    Keeps I (generateBits dir columns) fun _ => True := by
  unfold generateBits
  refine .after (Keeps.mapM (R := fun _ => True) fun _ _ => keeps_gate hI) fun g => ?_
  split
  · exact .after (keeps_gate hI) fun _ => .pure trivial
  · exact .pure trivial

theorem keeps_addend (dir : Direction) (y : Bundle) : Keeps I (addend dir y) fun _ => True := by
  cases dir with
  | addition => exact .pure trivial
  | subtraction => exact (Keeps.mapM (R := fun _ => True) fun _ _ => keeps_inv hI).any

theorem keeps_driveLowest {dir : Direction} {targets : List (Option Wire)} {p : Bundle}
    (h : ∀ t ∈ targets, ∀ w ∈ t, w ∈ free) :
    Keeps I (driveLowest dir targets p) fun _ => True := by
  unfold driveLowest
  split
  · exact .pure trivial
  · rename_i out _ _ _
    have hout : out ∈ free := h (some out) List.mem_cons_self out rfl
    cases dir with
    | addition => exact keeps_copyTo hI hout
    | subtraction => exact keeps_invTo hI hout
  · exact .throw

theorem keeps_driveUpper {p : Bundle} {spans : List Span} {sink : Sink}
    (hsink : ∀ w ∈ sink.wires, w ∈ free) : Keeps I (driveUpper p spans sink) fun _ => True := by
  unfold driveUpper
  split
  · refine .after (keeps_koggeStone hI _) fun carries => .after .checked fun pc => ?_
    refine .bind (.check fun _ h => mem_of_inStep h) fun l hl => .forM fun q hq => ?_
    exact keeps_gateTo hI (hsink _ (List.mem_of_mem_tail (hl q hq).2))
  · exact .pure trivial
  · refine .after (keeps_topCarry hI _) fun carry => .after .checked fun p => ?_
    exact keeps_gateTo hI (hsink _ (List.mem_singleton.mpr rfl))

theorem keeps_lookahead {a b : Bundle} {sink : Sink} {enc : Encoding} {dir : Direction}
    (hsink : ∀ w ∈ sink.wires, w ∈ free) :
    Keeps I (lookahead a b sink enc dir) fun _ => True := by
  unfold lookahead
  refine .after .checked fun width => ?_
  refine .after (inPlace_extend hI.inPlace _ _ _) fun x => .after (inPlace_extend hI.inPlace _ _ _) fun y => ?_
  refine .after (keeps_addend hI dir y) fun y => .after .checked fun columns => ?_
  refine .after (Keeps.mapM (R := fun _ => True) fun _ _ => keeps_gate hI) fun p => ?_
  refine .after (keeps_generateBits hI _ _) fun g => ?_
  refine .after (keeps_driveLowest hI fun t ht w hw => hsink w (mem_of_targets ht w hw)) fun _ => ?_
  exact .after .checked fun gp => keeps_driveUpper hI hsink

theorem keeps_addLookahead {a b out : Bundle} {enc : Encoding} {dir : Direction}
    (hout : ∀ w ∈ out, w ∈ free) : Keeps I (addLookahead a b out enc dir) fun _ => True := by
  unfold addLookahead
  exact .after .checked fun _ => keeps_lookahead hI hout

theorem keeps_addSub {dir : Direction} {a b out temps : Bundle} {enc : Encoding} {obj : Objective}
    (hout : ∀ w ∈ out, w ∈ free) (htemps : ∀ w ∈ temps, w ∈ free) :
    Keeps I (addSub dir a b out temps enc obj) fun _ => True := by
  cases obj with
  | size => exact inPlace_addRipple hI.inPlace hout htemps
  | depth => exact keeps_addLookahead hI hout

theorem keeps_sumBit {a b out temps : Bundle} {position : Nat} {enc : Encoding} {dir : Direction}
    {obj : Objective} (hout : ∀ w ∈ out, w ∈ free) (htemps : ∀ w ∈ temps, w ∈ free) :
    Keeps I (sumBit a b out temps position enc dir obj) fun _ => True := by
  cases obj with
  | size => exact inPlace_sumBit hI.inPlace hout htemps
  | depth =>
    unfold sumBit
    refine .after .checked fun _ => .bind (.check fun _ h => hout _ (mem_of_wireAt h)) fun o ho => ?_
    exact .after .checked fun _ => keeps_lookahead hI fun w hw => List.mem_singleton.mp hw ▸ ho

/-! ### Equality and order -/

theorem keeps_isZero {a out : Bundle} (hout : ∀ w ∈ out, w ∈ free) :
    Keeps I (isZero a out) fun _ => True := by
  unfold isZero
  refine .after .checked fun _ => .after .checked fun _ => .after (keeps_orAll hI a) fun any => ?_
  refine .bind (.check fun _ h => hout _ (mem_of_wireAt h)) fun o ho => ?_
  exact keeps_invTo hI ho

theorem keeps_differ (a b out : Bundle) : Keeps I (differ a b out) fun _ => True := by
  unfold differ
  refine .after .checked fun _ => .after .checked fun _ => .after .checked fun _ => ?_
  refine .after (Keeps.mapM (R := fun _ => True) fun _ _ => keeps_gate hI) fun ws => ?_
  exact keeps_orAll hI ws

theorem keeps_equal {a b out : Bundle} (hout : ∀ w ∈ out, w ∈ free) :
    Keeps I (equal a b out) fun _ => True := by
  unfold equal
  refine .after (keeps_differ hI a b out) fun any => ?_
  refine .bind (.check fun _ h => hout _ (mem_of_wireAt h)) fun o ho => ?_
  exact keeps_invTo hI ho

theorem keeps_notEqual {a b out : Bundle} (hout : ∀ w ∈ out, w ∈ free) :
    Keeps I (notEqual a b out) fun _ => True := by
  unfold notEqual
  refine .after (keeps_differ hI a b out) fun any => ?_
  refine .bind (.check fun _ h => hout _ (mem_of_wireAt h)) fun o ho => ?_
  exact keeps_copyTo hI ho

theorem keeps_lessThan {a b out : Bundle} {enc : Encoding} {obj : Objective}
    (hout : ∀ w ∈ out, w ∈ free) : Keeps I (lessThan a b out enc obj) fun _ => True := by
  unfold lessThan
  refine .after .checked fun _ => .after .checked fun _ => ?_
  exact .bind (keeps_adderTemps hI obj) fun temps htemps => keeps_sumBit hI hout htemps

theorem keeps_atLeast {a b out : Bundle} {enc : Encoding} {obj : Objective}
    (hout : ∀ w ∈ out, w ∈ free) : Keeps I (atLeast a b out enc obj) fun _ => True := by
  unfold atLeast
  refine .after .checked fun _ => .bind (keeps_newBundle hI 1) fun less hless => ?_
  refine .after (keeps_lessThan hI hless) fun _ => .after .checked fun l => ?_
  refine .bind (.check fun _ h => hout _ (mem_of_wireAt h)) fun o ho => ?_
  exact keeps_invTo hI ho

/-! ### Sign and magnitude -/

section

variable {temps : Bundle} (htemps : ∀ w ∈ temps, w ∈ free)
include htemps

theorem keeps_negate {a out : Bundle} {obj : Objective} (hout : ∀ w ∈ out, w ∈ free) :
    Keeps I (negate a out temps obj) fun _ => True := by
  unfold negate
  refine .after .checked fun _ => .after (inPlace_extend hI.inPlace _ _ _) fun x => ?_
  refine .after (Keeps.mapM (R := fun _ => True) fun _ _ => keeps_inv hI) fun inverted => ?_
  exact .after (keeps_constant hI true) fun one => keeps_addSub hI hout htemps

theorem keeps_magnitude {a out : Bundle} {obj : Objective} (hout : ∀ w ∈ out, w ∈ free) :
    Keeps I (magnitude a out temps obj) fun _ => True := by
  unfold magnitude
  refine .after .checked fun _ => .after .checked fun _ => .after .checked fun sign => ?_
  refine .bind (keeps_newBundle hI _) fun negated hnegated => ?_
  refine .after (keeps_negate hI htemps hnegated) fun _ => ?_
  split
  · exact inPlace_selectTo hI.inPlace hout htemps
  · refine .bind (keeps_newBundle hI _) fun absolute habsolute => ?_
    exact .after (inPlace_selectTo hI.inPlace habsolute htemps) fun _ => inPlace_copyBundle hI.inPlace hout

theorem keeps_applySign {a sign out : Bundle} {obj : Objective} (hout : ∀ w ∈ out, w ∈ free) :
    Keeps I (applySign a sign out temps obj) fun _ => True := by
  unfold applySign
  refine .after .checked fun _ => .after .checked fun _ => .after (inPlace_extend hI.inPlace _ _ _) fun abs => ?_
  refine .bind (keeps_newBundle hI _) fun negated hnegated => ?_
  exact .after (keeps_negate hI htemps hnegated) fun _ => inPlace_selectTo hI.inPlace hout htemps

/-! ### Products and quotients -/

theorem keeps_accumulate {width : Nat} {obj : Objective} {lo hi : ShiftedSum} :
    Keeps I (accumulate width temps obj lo hi) fun _ => True := by
  unfold accumulate
  refine .after .checked fun gap => .after (inPlace_extend hI.inPlace _ _ _) fun low => ?_
  refine .after .checked fun n => .bind (keeps_newBundle hI n) fun sum hsum => ?_
  dsimp only
  split
  · split
    · refine .after .checked fun upper => ?_
      exact .after (keeps_addSub hI hsum htemps) fun _ => .pure trivial
    · refine .after (keeps_constantBundle hI _ _) fun upper => ?_
      exact .after (keeps_addSub hI hsum htemps) fun _ => .pure trivial
  · exact .pure trivial

theorem keeps_trialStep {divisor remainder : Bundle} {obj : Objective} {bit : Wire} :
    Keeps I (trialStep divisor temps obj remainder bit) fun _ => True := by
  unfold trialStep
  refine .bind (keeps_newBundle hI _) fun diff hdiff => ?_
  refine .after (keeps_addSub hI hdiff htemps) fun _ => .after .checked fun borrow => ?_
  refine .after (keeps_inv hI) fun quotientBit => .bind (keeps_newBundle hI _) fun next hnext => ?_
  refine .after .checked fun kept => .after .checked fun reduced => ?_
  exact .after (inPlace_selectTo hI.inPlace hnext htemps) fun _ => .pure trivial

theorem keeps_trials {divisor : Bundle} {obj : Objective} : ∀ (bits quotient remainder : Bundle),
    Keeps I (trials divisor temps obj bits quotient remainder) fun _ => True
  | [], _, _ => .pure trivial
  | bit :: rest, quotient, remainder => by
    rw [trials]
    exact .after (keeps_trialStep hI htemps) fun p => keeps_trials rest (p.1 :: quotient) p.2

end

theorem keeps_partialProducts (a b : Bundle) (width : Nat) :
    Keeps I (partialProducts a b width) fun _ => True := by
  unfold partialProducts
  refine (Keeps.mapM (R := fun _ => True) fun p _ => ?_).any
  refine .after .checked fun n => .after .checked fun shifted => ?_
  refine .after (keeps_constantBundle hI _ _) fun zero => ?_
  exact .after (keeps_select hI) fun _ => .pure trivial

theorem keeps_multiplyUnsigned {a b out : Bundle} {obj : Objective} (hout : ∀ w ∈ out, w ∈ free) :
    Keeps I (multiplyUnsigned a b out obj) fun _ => True := by
  unfold multiplyUnsigned
  refine .bind (keeps_adderTemps hI obj) fun temps htemps => ?_
  refine .after (keeps_partialProducts hI _ _ _) fun terms => ?_
  dsimp only
  split
  · exact .after (Q := fun _ => True) .throw fun total => inPlace_copyBundle hI.inPlace hout
  · refine .after (Q := fun _ => True) (.foldlM trivial fun _ _ _ _ => keeps_accumulate hI htemps) fun total => ?_
    exact inPlace_copyBundle hI.inPlace hout
  · refine .after (keeps_reduce (fun _ _ _ => keeps_accumulate hI htemps) _) fun total => ?_
    exact inPlace_copyBundle hI.inPlace hout

theorem keeps_multiply {a b out : Bundle} {obj : Objective} {enc : Encoding}
    (hout : ∀ w ∈ out, w ∈ free) : Keeps I (multiply a b out obj enc) fun _ => True := by
  unfold multiply
  refine .after .checked fun _ => .after .checked fun _ => ?_
  cases enc with
  | unsigned => exact keeps_multiplyUnsigned hI hout
  | twosComplement =>
    refine .bind (keeps_addTemps hI 2) fun temps htemps => ?_
    refine .bind (keeps_newBundle hI _) fun ma hma => .after (keeps_magnitude hI htemps hma) fun _ => ?_
    refine .bind (keeps_newBundle hI _) fun mb hmb => .after (keeps_magnitude hI htemps hmb) fun _ => ?_
    refine .bind (keeps_newBundle hI _) fun product hproduct => ?_
    refine .after (keeps_multiplyUnsigned hI hproduct) fun _ => ?_
    refine .after .checked fun sa => .after .checked fun sb => .after (keeps_gate hI) fun sign => ?_
    exact keeps_applySign hI htemps hout

section

variable {a b quot rem : Bundle} {obj : Objective} (hquot : ∀ w ∈ quot, w ∈ free)
  (hrem : ∀ w ∈ rem, w ∈ free)
include hquot hrem

theorem keeps_divideUnsigned : Keeps I (divideUnsigned a b quot rem obj) fun _ => True := by
  unfold divideUnsigned
  refine .bind (keeps_divisionTemps hI obj) fun temps htemps => ?_
  refine .after (keeps_constant hI false) fun zero => .after (keeps_trials hI htemps _ _ _) fun p => ?_
  exact .after (inPlace_copyBundle hI.inPlace hquot) fun _ => inPlace_copyBundle hI.inPlace hrem

theorem keeps_divide {enc : Encoding} : Keeps I (divide a b quot rem enc obj) fun _ => True := by
  unfold divide
  refine .after .checked fun _ => .after .checked fun _ => .after .checked fun _ => ?_
  cases enc with
  | unsigned => exact keeps_divideUnsigned hI hquot hrem
  | twosComplement =>
    refine .bind (keeps_divisionTemps hI obj) fun temps htemps => ?_
    refine .bind (keeps_newBundle hI _) fun ma hma => .after (keeps_magnitude hI htemps hma) fun _ => ?_
    refine .bind (keeps_newBundle hI _) fun mb hmb => .after (keeps_magnitude hI htemps hmb) fun _ => ?_
    refine .bind (keeps_newBundle hI _) fun mq hmq => .bind (keeps_newBundle hI _) fun mr hmr => ?_
    refine .after (keeps_divideUnsigned hI hmq hmr) fun _ => ?_
    refine .after .checked fun sa => .after .checked fun sb => .after (keeps_gate hI) fun sign => ?_
    refine .after (keeps_applySign hI htemps hquot) fun _ => .after .checked fun sa => ?_
    exact keeps_applySign hI htemps hrem

end

end

end Build
end BitCircuit
