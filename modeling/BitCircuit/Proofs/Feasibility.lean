/-
# Which requests have a circuit

A request has a circuit exactly if its widths are ones the operation is defined for, no bundle that is
needed is too wide, and there is room for the gates and wires of the circuit
(`request_has_circuit_iff`). With other widths the recipe is refused before it appends a gate. With an
empty operand or result there is one reason, whatever the operation, and the cipher names the length of
its key or its number of rounds (`Request.refusal`). A bundle that is too wide is refused where it is
made: one that the recipe starts with before anything else is looked at (`Request.build_overflows`),
one that an operation makes for itself after its operands have passed
(`Request.build_overflows_scratch`).

Key definitions: `Build.Idle`, `Build.Rejects`, `Request.refusal`, `Build.Overflows`, `Request.drawn`.
Key theorems: `Request.build_rejects`, `Request.build_overflows`, `Request.circuit_cases`,
`request_has_circuit_iff`.
-/
import BitCircuit.Proofs.Catalogue
import BitCircuit.Proofs.Finished
import BitCircuit.Proofs.Room

namespace BitCircuit

/-- One of the widths is zero, so one of the bundles is empty. -/
theorem nil_mem_of_zero_mem {bundles : List Bundle} (h : 0 ∈ bundles.map List.length) : [] ∈ bundles := by
  obtain ⟨b, hb, hlen⟩ := List.mem_map.mp h
  rwa [List.eq_nil_of_length_eq_zero hlen] at hb

namespace Build

variable {α β : Type} {c c' : Circuit} {a b out temps : Bundle} {enc : Encoding} {dir : Direction}
  {obj : Objective} {e : Error}

/-! ### Steps that append no gate -/

/-- Refused or not, the step appends no gate. -/
def Idle (x : Build α) : Prop :=
  ∀ gates, Keeps (fun c => c.gates = gates) x fun _ => True

theorem Idle.of_exec {x : Build α} (h : ∀ c, (x.exec c).2.gates = c.gates) : x.Idle :=
  fun _ c hc => ⟨(h c).trans hc, fun _ _ => trivial⟩

theorem idle_newBundle (n : Nat) : (newBundle n).Idle := by
  refine .of_exec fun c => ?_
  rw [newBundle, exec_allocate]
  split <;> rfl

theorem idle_addInput (n : Nat) : (addInput n).Idle := by
  refine .of_exec fun c => ?_
  rw [Circuit.exec_addInput]
  split <;> rfl

theorem idle_addOutput (n : Nat) : (addOutput n).Idle := by
  refine .of_exec fun c => ?_
  rw [Circuit.exec_addOutput]
  split <;> rfl

theorem idle_addTemps (n : Nat) : (addTemps n).Idle := by
  refine .of_exec fun c => ?_
  rw [Circuit.exec_addTemps]
  split <;> rfl

theorem idle_adderTemps (obj : Objective) : (adderTemps obj).Idle := by
  cases obj with
  | size => exact idle_addTemps 2
  | depth => exact .of_exec fun _ => rfl

theorem idle_constant (v : Bool) : (constant v).Idle := by
  refine .of_exec fun c => ?_
  rw [exec_constant]
  split
  · rfl
  · exact (Circuit.addConstant_eq v).1

theorem idle_constantBundle (x : Word) (n : Nat) : (constantBundle x n).Idle :=
  fun gates => .after .checked fun _ => (Keeps.mapM fun v _ => idle_constant v gates).any

/-- The step is refused with `e` before it appends a gate. -/
def Rejects (x : Build α) (c : Circuit) (e : Error) : Prop :=
  ∃ c', x.exec c = (.error e, c') ∧ c'.gates = c.gates

theorem Rejects.refuses {x : Build α} (h : x.Rejects c e) : x.Refuses c e := by
  obtain ⟨c', hexec, -⟩ := h
  rw [Refuses, hexec]

theorem Rejects.of_exec_eq {x y : Build α} (h : x.exec c = y.exec c') (hgates : c'.gates = c.gates)
    (hy : y.Rejects c' e) : x.Rejects c e := by
  obtain ⟨c₁, hexec, hgates'⟩ := hy
  exact ⟨c₁, h.trans hexec, hgates'.trans hgates⟩

theorem Rejects.bind {x : Build α} {f : α → Build β} (h : x.Rejects c e) : (x >>= f).Rejects c e := by
  obtain ⟨c', hexec, hgates⟩ := h
  exact ⟨c', by rw [exec_bind, hexec], hgates⟩

theorem Rejects.checked {check : Except Error α} {f : α → Build β} (h : check = .error e) :
    ((liftM check : Build α) >>= f).Rejects c e :=
  .bind ⟨c, by rw [exec_liftM, h], rfl⟩

theorem Rejects.passed {check : Except Error α} {f : α → Build β} {a : α} (hc : check = .ok a)
    (hf : (f a).Rejects c e) : ((liftM check : Build α) >>= f).Rejects c e :=
  .of_exec_eq (by rw [exec_bind, exec_liftM, hc]) rfl hf

/-- A step that is refused after another one that appends no gate. -/
theorem Yields.rejects {x : Build α} {f : α → Build β} {P : α → Circuit → Prop} (hx : x.Yields c P)
    (hidle : x.Idle) (hf : ∀ a c', P a c' → (f a).Rejects c' e) : (x >>= f).Rejects c e := by
  obtain ⟨a, c', hxa, ha⟩ := hx
  exact .of_exec_eq (by rw [exec_bind, hxa]) ((hidle c.gates).of_exec hxa rfl) (hf a c' ha)

/-! ### Empty bundles -/

theorem requireOperands_eq_error {sink : Sink} (h : [] ∈ [a, b, sink.wires]) :
    requireOperands a b sink = .error (.widthMismatch 0 1) := by
  unfold requireOperands
  by_cases hab : [] ∈ [a, b]
  · rw [requireNonempty_eq_error hab]
    rfl
  · have hsink : [] ∈ [sink.wires] := by simpa [not_or.mp (by simpa using hab)] using h
    have hok : requireNonempty [a, b] = .ok () :=
      requireNonempty_eq_ok.mpr fun x hx he => hab (he ▸ hx)
    rw [hok, requireNonempty_eq_error hsink]
    rfl

theorem addSub_rejects (h : [] ∈ [a, b, out]) :
    (addSub dir a b out temps enc obj).Rejects c (.widthMismatch 0 1) := by
  cases obj with
  | size => exact .checked (requireOperands_eq_error h)
  | depth => exact .checked (requireOperands_eq_error h)

theorem sumBit_rejects {position : Nat} (hone : out.length = 1) (h : [] ∈ [a, b]) :
    (sumBit a b out temps position enc dir obj).Rejects c (.widthMismatch 0 1) := by
  obtain ⟨o, rfl⟩ := List.length_eq_one_iff.mp hone
  unfold sumBit
  refine .passed (requireWidth_eq_ok.mpr rfl) (.passed (wireAt_eq_ok.mpr rfl) ?_)
  exact .checked (requireOperands_eq_error (List.mem_append_left [_] h))

theorem lessThan_rejects (hone : out.length = 1) (h : [] ∈ [a, b]) :
    (lessThan a b out enc obj).Rejects c (.widthMismatch 0 1) :=
  .passed (requireWidth_eq_ok.mpr hone) (.checked (requireNonempty_eq_error h))

/-- There is nothing to take the disjunction of. -/
theorem orAll_nil_rejects : (orAll []).Rejects c (.widthMismatch 0 1) :=
  ⟨c, rfl, rfl⟩

theorem isZero_nil_rejects (hone : out.length = 1) : (isZero [] out).Rejects c (.widthMismatch 0 1) := by
  refine .passed (requireWidth_eq_ok.mpr hone) (.passed (requireDistinct_eq_ok.mpr (by simp)) ?_)
  exact orAll_nil_rejects.bind

theorem differ_nil_rejects (hone : out.length = 1) :
    (differ [] [] out).Rejects c (.widthMismatch 0 1) := by
  refine .passed (requireWidth_eq_ok.mpr hone) (.passed (requireWidth_eq_ok.mpr rfl) ?_)
  exact .passed (requireDistinct_eq_ok.mpr (by simp)) orAll_nil_rejects

section

variable {n : Nat} (hn : n < wireLimit)
include hn

theorem newBundle_width : (newBundle n).Yields c fun b _ => b.length = n :=
  ⟨_, _, by rw [newBundle, exec_allocate, if_pos hn], Circuit.length_nextBundle⟩

theorem addOutput_yields : (addOutput n).Yields c fun _ _ => True :=
  ⟨_, _, by rw [Circuit.exec_addOutput, if_pos hn], trivial⟩

theorem addTemps_yields : (addTemps n).Yields c fun _ _ => True :=
  ⟨_, _, by rw [Circuit.exec_addTemps, if_pos hn], trivial⟩

end

theorem adderTemps_yields : (adderTemps obj).Yields c fun _ _ => True := by
  cases obj with
  | size => exact addTemps_yields (by decide)
  | depth => exact .pure trivial

theorem divisionTemps_yields : (divisionTemps obj).Yields c fun _ _ => True := by
  cases obj with
  | size => exact addTemps_yields (by decide)
  | depth => exact addTemps_yields (by decide)

end Build

namespace Request

open Build

variable {a b n : Nat} {e : Error}

/-! ### Requests without a circuit -/

/-- Why a request is refused whose widths are not ones the operation is defined for. -/
def refusal : Request → Error
  | .aes 0 => .roundKeys 128
  | .aes rounds => .tooManyRounds rounds
  | _ => .widthMismatch 0 1

theorem zero_mem_pair (h : ¬ (1 ≤ a ∧ 1 ≤ b)) : 0 ∈ [a, b] := by
  simp only [List.mem_cons, List.not_mem_nil, or_false]
  omega

theorem zero_mem_triple (h : ¬ (1 ≤ a ∧ 1 ≤ b ∧ 1 ≤ n)) : 0 ∈ [a, b, n] := by
  simp only [List.mem_cons, List.not_mem_nil, or_false]
  omega

theorem buildBinary_refuses {op : Bundle → Bundle → Bundle → Build Unit} (ha : a < wireLimit)
    (hb : b < wireLimit) (hn : n < wireLimit)
    (hop : ∀ (c : Circuit) (x y out : Bundle), c.Registers [x, y] [out] → x.length = a → y.length = b →
      out.length = n → (op x y out).Refuses c e) : (buildBinary a b n op).Refuses .empty e := by
  obtain ⟨x, y, out, hx, hy, hout, hinputs, houtputs, hexec⟩ := exec_buildBinary op ha hb hn
  exact .of_exec_eq hexec (hop _ x y out ⟨wellFormed_operands a b n, hinputs, houtputs⟩ hx hy hout)

theorem buildBinary_rejects {op : Bundle → Bundle → Bundle → Build Unit} (ha : a < wireLimit)
    (hb : b < wireLimit) (hn : n < wireLimit)
    (hop : ∀ (c : Circuit) (x y out : Bundle), x.length = a → y.length = b → out.length = n →
      (op x y out).Rejects c e) : (buildBinary a b n op).Rejects .empty e := by
  obtain ⟨x, y, out, hx, hy, hout, -, -, hexec⟩ := exec_buildBinary op ha hb hn
  exact .of_exec_eq hexec rfl (hop _ x y out hx hy hout)

theorem buildUnary_rejects {op : Bundle → Bundle → Build Unit} (ha : a < wireLimit) (hn : n < wireLimit)
    (hop : ∀ (c : Circuit) (x out : Bundle), x.length = a → out.length = n → (op x out).Rejects c e) :
    (addInput a >>= fun x => addOutput n >>= fun out => op x out).Rejects .empty e := by
  refine (addInput_registers .empty ha).rejects (idle_addInput a) ?_
  rintro x c₁ ⟨hx, h₁⟩
  refine (addOutput_registers h₁ hn).rejects (idle_addOutput n) ?_
  rintro out c₂ ⟨hout, -⟩
  exact hop c₂ x out hx hout

theorem buildMsb_rejects {dir : Direction} {enc : Encoding} {obj : Objective} (hzero : 0 ∈ [a, b])
    (ha : a < wireLimit) (hb : b < wireLimit) :
    (buildMsb dir enc a b obj).Rejects .empty (.widthMismatch 0 1) := by
  refine buildBinary_rejects ha hb (by decide) ?_
  rintro c x y out rfl rfl hone
  exact adderTemps_yields.rejects (idle_adderTemps obj) fun temps c' _ =>
    sumBit_rejects hone (nil_mem_of_zero_mem hzero)

/-- **A request is refused for its widths** before any gate is appended. -/
theorem build_rejects {r : Request} (hvalid : ¬ r.Valid) (hfits : ∀ n ∈ r.bundles, n < wireLimit) :
    r.build.Rejects .empty r.refusal := by
  cases r with
  | addSub dir enc a b n obj =>
    obtain ⟨ha, hb, hn⟩ : a < wireLimit ∧ b < wireLimit ∧ n < wireLimit := by
      simpa [bundles, inputWidths, outputWidths] using hfits
    have hzero := zero_mem_triple hvalid
    refine buildBinary_rejects ha hb hn ?_
    rintro c x y out rfl rfl rfl
    exact adderTemps_yields.rejects (idle_adderTemps obj) fun temps c' _ =>
      addSub_rejects (nil_mem_of_zero_mem hzero)
  | addSubConst dir a b v n obj =>
    obtain ⟨ha, hb, hn⟩ : a < wireLimit ∧ b < wireLimit ∧ n < wireLimit := by simpa [bundles] using hfits
    have hzero := zero_mem_triple hvalid
    refine (addInput_registers .empty ha).rejects (idle_addInput a) ?_
    rintro x c₁ ⟨rfl, h₁⟩
    refine (constantBundle_ready h₁.site hb).rejects (idle_constantBundle _ b) ?_
    rintro y c₂ ⟨hev, rfl, -⟩
    refine (addOutput_registers (h₁.evolves hev) hn).rejects (idle_addOutput n) ?_
    rintro out c₃ ⟨rfl, -⟩
    exact adderTemps_yields.rejects (idle_adderTemps obj) fun temps c' _ =>
      addSub_rejects (nil_mem_of_zero_mem hzero)
  | addMsb a obj =>
    have ha : a < wireLimit := hfits a (by simp [bundles, inputWidths])
    exact buildMsb_rejects (zero_mem_pair fun h => hvalid h.1) ha ha
  | subMsb enc a b obj =>
    exact buildMsb_rejects (zero_mem_pair hvalid) (hfits a (by simp [bundles, inputWidths]))
      (hfits b (by simp [bundles, inputWidths]))
  | multiply enc a b n obj =>
    obtain ⟨ha, hb, hn⟩ : a < wireLimit ∧ b < wireLimit ∧ n < wireLimit := by
      simpa [bundles, inputWidths, outputWidths] using hfits
    have hzero := zero_mem_triple hvalid
    refine buildBinary_rejects ha hb hn ?_
    rintro c x y out rfl rfl rfl
    exact .checked (requireNonempty_eq_error (nil_mem_of_zero_mem hzero))
  | divide enc a b n =>
    obtain ⟨ha, hb, hn⟩ : a < wireLimit ∧ b < wireLimit ∧ n < wireLimit := by
      simpa [bundles, inputWidths, outputWidths] using hfits
    have hzero := zero_mem_triple hvalid
    obtain ⟨c, x, y, quot, rem, -, rfl, rfl, rfl, -, hexec, hgates⟩ := exec_divide enc ha hb hn
    have hnil : [] ∈ [x, y, quot] := nil_mem_of_zero_mem hzero
    exact .of_exec_eq hexec hgates (.checked (requireNonempty_eq_error (List.mem_append_left [rem] hnil)))
  | equal a =>
    have ha : a < wireLimit := hfits a (by simp [bundles, inputWidths])
    obtain rfl : a = 0 := Nat.eq_zero_of_not_pos hvalid
    refine buildBinary_rejects ha ha (by decide) fun c x y out hx hy hone => ?_
    -- the widths agree, so only the tree of disjunctions finds nothing to work on
    rw [List.eq_nil_of_length_eq_zero hx, List.eq_nil_of_length_eq_zero hy]
    exact (differ_nil_rejects hone).bind
  | notEqual a =>
    have ha : a < wireLimit := hfits a (by simp [bundles, inputWidths])
    obtain rfl : a = 0 := Nat.eq_zero_of_not_pos hvalid
    refine buildBinary_rejects ha ha (by decide) fun c x y out hx hy hone => ?_
    rw [List.eq_nil_of_length_eq_zero hx, List.eq_nil_of_length_eq_zero hy]
    exact (differ_nil_rejects hone).bind
  | lessThan enc a b obj =>
    have hzero := zero_mem_pair hvalid
    refine buildBinary_rejects (hfits a (by simp [bundles, inputWidths]))
      (hfits b (by simp [bundles, inputWidths])) (by decide) ?_
    rintro c x y out rfl rfl hone
    exact lessThan_rejects hone (nil_mem_of_zero_mem hzero)
  | atLeast enc a b obj =>
    have hzero := zero_mem_pair hvalid
    refine buildBinary_rejects (hfits a (by simp [bundles, inputWidths]))
      (hfits b (by simp [bundles, inputWidths])) (by decide) ?_
    rintro c x y out rfl rfl hone
    refine .passed (requireWidth_eq_ok.mpr hone) ?_
    exact (newBundle_width (by decide)).rejects (idle_newBundle 1) fun less c' hlen =>
      (lessThan_rejects hlen (nil_mem_of_zero_mem hzero)).bind
  | select a => exact absurd trivial hvalid
  | magnitude a obj =>
    have ha : a < wireLimit := hfits a (by simp [bundles, inputWidths])
    obtain rfl : a = 0 := Nat.eq_zero_of_not_pos hvalid
    refine buildUnary_rejects ha ha fun c x out hx _ => ?_
    refine (addOutput_yields (by decide)).rejects (idle_addOutput 1) fun sign c₁ _ => ?_
    refine (addTemps_yields (by decide)).rejects (idle_addTemps 2) fun temps c₂ _ => ?_
    rw [List.eq_nil_of_length_eq_zero hx]
    exact (Rejects.checked (requireNonempty_eq_error (by simp))).bind
  | applySign a obj =>
    have ha : a < wireLimit := hfits a (by simp [bundles, inputWidths])
    obtain rfl : a = 0 := Nat.eq_zero_of_not_pos hvalid
    refine buildBinary_rejects ha (by decide) ha fun c x sign out hx hsign _ => ?_
    refine (addTemps_yields (by decide)).rejects (idle_addTemps 2) fun temps c₁ _ => ?_
    rw [List.eq_nil_of_length_eq_zero hx]
    exact .passed (requireWidth_eq_ok.mpr hsign) (.checked (requireNonempty_eq_error (by simp)))
  | negate a obj =>
    have ha : a < wireLimit := hfits a (by simp [bundles, inputWidths])
    obtain rfl : a = 0 := Nat.eq_zero_of_not_pos hvalid
    refine buildUnary_rejects ha ha fun c x out hx _ => ?_
    refine (addTemps_yields (by decide)).rejects (idle_addTemps 2) fun temps c₁ _ => ?_
    rw [List.eq_nil_of_length_eq_zero hx]
    exact .checked (requireNonempty_eq_error (by simp))
  | isZero a =>
    have ha : a < wireLimit := hfits a (by simp [bundles, inputWidths])
    obtain rfl : a = 0 := Nat.eq_zero_of_not_pos hvalid
    refine buildUnary_rejects ha (by decide) fun c x out hx hone => ?_
    rw [List.eq_nil_of_length_eq_zero hx]
    exact isZero_nil_rejects hone
  | complement a =>
    have ha : a < wireLimit := hfits a (by simp [bundles, inputWidths])
    obtain rfl : a = 0 := Nat.eq_zero_of_not_pos hvalid
    refine buildUnary_rejects ha ha fun c x out hx _ => ?_
    rw [List.eq_nil_of_length_eq_zero hx]
    exact .checked (requireNonempty_eq_error (by simp))
  | bitwise op a b n =>
    obtain ⟨ha, hb, hn⟩ : a < wireLimit ∧ b < wireLimit ∧ n < wireLimit := by
      simpa [bundles, inputWidths, outputWidths] using hfits
    have hzero := zero_mem_pair hvalid
    refine buildBinary_rejects ha hb hn ?_
    rintro c x y out rfl rfl -
    exact .checked (requireNonempty_eq_error (nil_mem_of_zero_mem hzero))
  | aes rounds =>
    by_cases hsize : 128 * (rounds + 1) < sizeLimit
    · obtain rfl : rounds = 0 := Nat.eq_zero_of_not_pos fun h => hvalid ⟨h, hsize⟩
      refine .passed (if_pos hsize) (buildBinary_rejects (by decide) (by decide) (by decide) ?_)
      intro c x y out hx hy hout
      refine .passed (requireWidth_eq_ok.mpr hx) (.passed (requireWidth_eq_ok.mpr hout) (.checked ?_))
      unfold Aes.requireRoundKeys
      rw [hy]
      rfl
    · have hpos : rounds ≠ 0 := by
        rintro rfl
        exact hsize (by decide)
      obtain ⟨k, rfl⟩ := Nat.exists_eq_succ_of_ne_zero hpos
      exact .checked (if_neg hsize)

end Request

namespace Build

variable {α β : Type} {c : Circuit} {D : Set Wire} {ins outs : List Bundle} {widths : List Nat} {n : Nat}
  {a b out temps : Bundle} {enc : Encoding} {dir : Direction} {obj : Objective}

/-! ### Bundles that are too wide -/

/-- The step is refused for a bundle of one of these widths that is too wide. -/
def Overflows (step : Build α) (c : Circuit) (widths : List Nat) : Prop :=
  ∃ n ∈ widths, wireLimit ≤ n ∧ step.Refuses c (.tooLarge n)

/-- There is no bundle left that could be too wide. -/
theorem overflows_nil {step : Build α} (h : ¬ ∀ k ∈ ([] : List Nat), k < wireLimit) :
    step.Overflows c [] :=
  absurd (by simp) h

/-- A bundle in front of others: the first one that is too wide is refused. -/
theorem overflows_bind {x : Build α} {f : α → Build β} {P : α → Circuit → Prop}
    (hwide : ¬ ∀ k ∈ n :: widths, k < wireLimit) (hok : n < wireLimit → x.Yields c P)
    (hbad : ¬ n < wireLimit → x.Refuses c (.tooLarge n))
    (hf : ∀ a c', P a c' → (¬ ∀ k ∈ widths, k < wireLimit) → (f a).Overflows c' widths) :
    (x >>= f).Overflows c (n :: widths) := by
  by_cases hn : n < wireLimit
  · obtain ⟨a, c', hexec, ha⟩ := hok hn
    have hrest : ¬ ∀ k ∈ widths, k < wireLimit := fun h => hwide (List.forall_mem_cons.mpr ⟨hn, h⟩)
    obtain ⟨k, hk, hle, hrefuses⟩ := hf a c' ha hrest
    refine ⟨k, List.mem_cons_of_mem n hk, hle, ?_⟩
    exact .of_exec_eq (by rw [exec_bind, hexec]) hrefuses
  · exact ⟨n, List.mem_cons_self, Nat.not_lt.mp hn, (hbad hn).bind⟩

theorem refuses_of_exec {step : Build Bundle} {made : Except Error Bundle × Circuit}
    (h : step.exec c = if n < wireLimit then made else (.error (.tooLarge n), c))
    (hn : ¬ n < wireLimit) : step.Refuses c (.tooLarge n) := by
  rw [Refuses, h, if_neg hn]

section

variable {f : Bundle → Build β} (hr : c.Registers ins outs) (hwide : ¬ ∀ k ∈ n :: widths, k < wireLimit)
include hr hwide

theorem addInput_overflows
    (hf : ∀ x c', x.length = n ∧ c'.Registers (ins ++ [x]) outs → (¬ ∀ k ∈ widths, k < wireLimit) →
      (f x).Overflows c' widths) : (addInput n >>= f).Overflows c (n :: widths) :=
  overflows_bind hwide (addInput_registers hr) (refuses_of_exec (Circuit.exec_addInput n c)) hf

theorem addOutput_overflows
    (hf : ∀ o c', c'.Registers ins (outs ++ [o]) → (¬ ∀ k ∈ widths, k < wireLimit) →
      (f o).Overflows c' widths) : (addOutput n >>= f).Overflows c (n :: widths) :=
  overflows_bind hwide (addOutput_registers hr) (refuses_of_exec (Circuit.exec_addOutput n c))
    fun o c' h => hf o c' h.2.1

end

/-- An operand is not brought to a width that a bundle cannot have. -/
theorem extend_refuses {width : Nat} (hs : c.Site D) (hane : a ≠ []) (ha : ∀ w ∈ a, c.Ready D w)
    (hlt : a.length < width) (hwidth : ¬ width < wireLimit) :
    (extend enc width a).Refuses c (.tooLarge width) := by
  unfold extend
  rw [if_neg (Nat.not_le.mpr hlt)]
  exact Yields.refuses (padding_finds hs hane ha) fun pad c' _ => .checked (if_neg hwidth)

/-- A bit of a sum that is too far up: the operands would have to be brought to its position. -/
theorem sumBit_overflows {position : Nat} (hs : c.Site D) (hane : a ≠ []) (hbne : b ≠ [])
    (ha : ∀ w ∈ a, c.Ready D w) (hb : ∀ w ∈ b, c.Ready D w) (hroom : Room D out temps obj.temps)
    (hone : out.length = 1) (hle : a.length ≤ position) (hsize : position + 1 < sizeLimit)
    (hlimit : ¬ position + 1 < wireLimit) :
    (sumBit a b out temps position enc dir obj).Refuses c (.tooLarge (position + 1)) := by
  obtain ⟨o, rfl⟩ := List.length_eq_one_iff.mp hone
  have hoperands : requireOperands a b (.bit position o) = .ok () :=
    requireOperands_of_ready hane hbne ha hb (by simp [Sink.wires]) hroom.out_mem
  have hwidth : (Sink.bit position o).width = .ok (position + 1) := if_pos hsize
  have hextend : (extend enc (position + 1) a).Refuses c (.tooLarge (position + 1)) :=
    extend_refuses hs hane ha (Nat.lt_succ_of_le hle) hlimit
  unfold sumBit
  refine .passed (requireWidth_eq_ok.mpr rfl) (.passed (wireAt_eq_ok.mpr rfl) (.passed hoperands ?_))
  cases obj with
  | size =>
    refine .passed (requireTemps_eq_ok.mpr hroom.enough) ?_
    exact .passed (Room.distinct (ready_pair ha hb) hroom) (.passed hwidth hextend.bind)
  | depth => exact .passed hwidth hextend.bind

section

variable (hs : c.Site D) (hout : ∀ w ∈ out, w ∈ D) (hone : out.length = 1) (hane : a ≠ []) (hbne : b ≠ [])
  (ha : ∀ w ∈ a, c.Ready D w) (hb : ∀ w ∈ b, c.Ready D w) (hmax : max a.length b.length < wireLimit)
  (hlimit : ¬ max a.length b.length + 1 < wireLimit)
include hs hout hone hane hbne ha hb hmax hlimit

theorem lessThan_overflows :
    (lessThan a b out enc obj).Refuses c (.tooLarge (max a.length b.length + 1)) := by
  have hsize : max a.length b.length + 1 < sizeLimit := Nat.lt_of_le_of_lt hmax (by decide)
  refine .passed (requireWidth_eq_ok.mpr hone) ?_
  refine .passed (requireNonempty_eq_ok.mpr (by simp [hane, hbne])) ?_
  refine (adderTemps_room hs hout).refuses ?_
  rintro temps c₁ ⟨D₁, hwide, hroom⟩
  exact sumBit_overflows hwide.site hane hbne (fun w hw => hwide.ready (ha w hw))
    (fun w hw => hwide.ready (hb w hw)) hroom hone (le_max_left _ _) hsize hlimit

omit hout in
theorem atLeast_overflows :
    (atLeast a b out enc obj).Refuses c (.tooLarge (max a.length b.length + 1)) := by
  refine .passed (requireWidth_eq_ok.mpr hone) ?_
  refine (newBundle_widens hs (by decide)).refuses ?_
  rintro less c₁ ⟨hlen, -, hwide⟩
  refine Refuses.bind (lessThan_overflows hwide.site (fun w hw => .inr hw) hlen hane hbne
    (fun w hw => hwide.ready (ha w hw)) (fun w hw => hwide.ready (hb w hw)) hmax hlimit)

end

/-- The first trial needs a difference two bits wider than the divisor. -/
theorem divideUnsigned_overflows {quot rem : Bundle} (hane : a ≠ [])
    (hlimit : ¬ b.length + 2 < wireLimit) :
    (divideUnsigned a b quot rem obj).Refuses c (.tooLarge (b.length + 2)) := by
  obtain ⟨bit, bits, hbits⟩ := List.exists_cons_of_ne_nil (List.reverse_ne_nil_iff.mpr hane)
  have hdiff : ∀ c', (newBundle (b.length + 2)).Refuses c' (.tooLarge (b.length + 2)) := fun c' =>
    refuses_of_exec (exec_allocate .undriven _ c') hlimit
  refine divisionTemps_yields.refuses fun temps c₁ _ => ?_
  obtain ⟨zero, c₂, hzero⟩ := constant_succeeds c₁ false
  have hconstant : (constant false).Yields c₁ fun _ _ => True := ⟨zero, c₂, hzero, trivial⟩
  refine hconstant.refuses fun zero c₂ _ => ?_
  rw [hbits, trials]
  exact (hdiff c₂).bind.bind.bind

/-- A signed operation that is refused once it has the magnitude of an operand. -/
theorem newMagnitude_refuses {rest : Bundle → Build α} {e : Error} (hs : c.Site D) (hane : a ≠ [])
    (ha : ∀ w ∈ a, c.Ready D w) (halimit : a.length < wireLimit) (hroom : Room D out temps (max 1 obj.temps))
    (hrest : ∀ m c', c.Evolves D c' → m.length = a.length → (rest m).Refuses c' e) :
    (newBundle a.length >>= fun m => magnitude a m temps obj >>= fun _ => rest m).Refuses c e := by
  refine (newBundle_widens hs halimit).refuses ?_
  rintro m c₁ ⟨hlen, hnew, hwide⟩
  refine Yields.refuses (magnitude_fills hwide.site (ne_nil_of_length_eq hlen hane) (hlen ▸ halimit) hane
    (fun w hw => hwide.ready (ha w hw)) (hroom.inner hwide.subset fun w hw => ⟨.inr hw, hnew w hw⟩)
    halimit) ?_
  rintro u c₂ ⟨hev, -⟩
  exact hrest m c₂ (hwide.evolves_of hev) hlen

theorem divide_overflows {quot rem : Bundle} (hs : c.Site D) (hane : a ≠ []) (hbne : b ≠ [])
    (hqne : quot ≠ []) (hrne : rem ≠ []) (ha : ∀ w ∈ a, c.Ready D w) (hb : ∀ w ∈ b, c.Ready D w)
    (hquot : ∀ w ∈ quot, w ∈ D) (hrem : ∀ w ∈ rem, w ∈ D) (hapart : ∀ w ∈ quot, w ∉ rem)
    (halimit : a.length < wireLimit) (hblimit : b.length < wireLimit)
    (hlimit : ¬ b.length + 2 < wireLimit) :
    (divide a b quot rem enc obj).Refuses c (.tooLarge (b.length + 2)) := by
  have hdistinct : requireDistinct [quot, rem] [a, b] = .ok () :=
    requireDistinct_of_ready (ready_pair ha hb) (by simpa using And.intro hquot hrem)
  refine .passed (requireNonempty_eq_ok.mpr (by simp [hane, hbne, hqne, hrne])) (.passed hdistinct ?_)
  refine .passed (requireDistinct_eq_ok.mpr (by simpa using hapart)) ?_
  cases enc with
  | unsigned => exact divideUnsigned_overflows hane hlimit
  | twosComplement =>
    refine (divisionTemps_room hs hquot).refuses ?_
    rintro temps c₁ ⟨D₁, hwide, hroom⟩
    refine newMagnitude_refuses hwide.site hane (fun w hw => hwide.ready (ha w hw)) halimit hroom
      fun ma c₂ hev hma => ?_
    refine newMagnitude_refuses (hwide.site.evolves hev) hbne
      (fun w hw => (hwide.ready (hb w hw)).evolves hev) hblimit hroom fun mb c₃ _ hmb => ?_
    refine (newBundle_width halimit).refuses fun mq c₄ _ => ?_
    refine (newBundle_width hblimit).refuses fun mr c₅ _ => ?_
    -- up to here every step succeeds; the trials of the magnitudes are refused as those of `a` and `b`
    rw [← hmb] at hlimit ⊢
    exact (divideUnsigned_overflows (ne_nil_of_length_eq hma hane) hlimit).bind

end Build

namespace Request

open Build

variable {a b n : Nat}

theorem buildBinary_overflows {op : Bundle → Bundle → Bundle → Build Unit}
    (hwide : ¬ ∀ k ∈ [a, b, n], k < wireLimit) : (buildBinary a b n op).Overflows .empty [a, b, n] := by
  refine addInput_overflows .empty hwide ?_
  rintro x c₁ ⟨-, h₁⟩ hwide
  refine addInput_overflows h₁ hwide ?_
  rintro y c₂ ⟨-, h₂⟩ hwide
  exact addOutput_overflows h₂ hwide fun out c₃ _ hwide => overflows_nil hwide

theorem buildUnary_overflows {op : Bundle → Bundle → Build Unit}
    (hwide : ¬ ∀ k ∈ [a, n], k < wireLimit) :
    (addInput a >>= fun x => addOutput n >>= fun out => op x out).Overflows .empty [a, n] := by
  refine addInput_overflows .empty hwide ?_
  rintro x c₁ ⟨-, h₁⟩ hwide
  exact addOutput_overflows h₁ hwide fun out c₂ _ hwide => overflows_nil hwide

/-- **A recipe is refused at the first of its bundles that is too wide.** -/
theorem build_overflows {r : Request} (hwide : ¬ ∀ n ∈ r.bundles, n < wireLimit) :
    r.build.Overflows .empty r.bundles := by
  cases r with
  | addSub | addMsb | subMsb | multiply | equal | notEqual | lessThan | atLeast | applySign | bitwise =>
    exact buildBinary_overflows hwide
  | negate | isZero | complement => exact buildUnary_overflows hwide
  | addSubConst dir a b v n obj =>
    refine addInput_overflows .empty hwide ?_
    rintro x c₁ ⟨-, h₁⟩ hwide
    refine overflows_bind hwide (constantBundle_ready h₁.site) (fun hb => .checked (if_neg hb)) ?_
    rintro y c₂ ⟨hev, -⟩ hwide
    exact addOutput_overflows (h₁.evolves hev) hwide fun out c₃ _ hwide => overflows_nil hwide
  | divide enc a b n =>
    refine addInput_overflows .empty hwide ?_
    rintro x c₁ ⟨-, h₁⟩ hwide
    refine addInput_overflows h₁ hwide ?_
    rintro y c₂ ⟨-, h₂⟩ hwide
    refine addOutput_overflows h₂ hwide ?_
    rintro quot c₃ h₃ hwide
    exact addOutput_overflows h₃ hwide fun rem c₄ _ hwide => overflows_nil hwide
  | select a =>
    refine addInput_overflows .empty hwide ?_
    rintro ifTrue c₁ ⟨-, h₁⟩ hwide
    refine addInput_overflows h₁ hwide ?_
    rintro ifFalse c₂ ⟨-, h₂⟩ hwide
    refine addInput_overflows h₂ hwide ?_
    rintro choice c₃ ⟨-, h₃⟩ hwide
    exact addOutput_overflows h₃ hwide fun out c₄ _ hwide => overflows_nil hwide
  | magnitude a obj =>
    refine addInput_overflows .empty hwide ?_
    rintro x c₁ ⟨-, h₁⟩ hwide
    refine addOutput_overflows h₁ hwide ?_
    rintro out c₂ h₂ hwide
    exact addOutput_overflows h₂ hwide fun sign c₃ _ hwide => overflows_nil hwide
  | aes rounds =>
    rw [bundles] at hwide ⊢
    by_cases hsize : 128 * (rounds + 1) < sizeLimit
    · rw [if_pos hsize] at hwide ⊢
      have hover : (buildBinary 128 (128 * (rounds + 1)) 128 encrypt).Overflows .empty _ :=
        buildBinary_overflows hwide
      obtain ⟨n, hn, hle, hrefuses⟩ := hover
      exact ⟨n, hn, hle, .passed (if_pos hsize) hrefuses⟩
    · rw [if_neg hsize] at hwide ⊢
      exact overflows_nil hwide

/-- With its first bundles in place, a request is refused for the wider ones that its operation
makes. -/
theorem build_overflows_scratch {r : Request} (hvalid : r.Valid) (hfits : ∀ n ∈ r.bundles, n < wireLimit)
    (hwide : ¬ ∀ n ∈ r.scratch, n < wireLimit) : r.build.Overflows .empty r.scratch := by
  cases r with
  | lessThan enc a b obj =>
    have ha : a < wireLimit := hfits a (by simp [bundles, inputWidths])
    have hb : b < wireLimit := hfits b (by simp [bundles, inputWidths])
    have hlimit : ¬ max a b + 1 < wireLimit := by simpa [scratch] using hwide
    refine ⟨max a b + 1, by simp [scratch], Nat.not_lt.mp hlimit, buildBinary_refuses ha hb (by decide) ?_⟩
    rintro c x y out hr rfl rfl hone
    exact lessThan_overflows hr.site (by simp) hone (ne_nil_of_pos rfl hvalid.1) (ne_nil_of_pos rfl hvalid.2)
      (hr.ready (by simp)) (hr.ready (by simp)) (max_lt ha hb) hlimit
  | atLeast enc a b obj =>
    have ha : a < wireLimit := hfits a (by simp [bundles, inputWidths])
    have hb : b < wireLimit := hfits b (by simp [bundles, inputWidths])
    have hlimit : ¬ max a b + 1 < wireLimit := by simpa [scratch] using hwide
    refine ⟨max a b + 1, by simp [scratch], Nat.not_lt.mp hlimit, buildBinary_refuses ha hb (by decide) ?_⟩
    rintro c x y out hr rfl rfl hone
    exact atLeast_overflows hr.site hone (ne_nil_of_pos rfl hvalid.1) (ne_nil_of_pos rfl hvalid.2)
      (hr.ready (by simp)) (hr.ready (by simp)) (max_lt ha hb) hlimit
  | divide enc a b n =>
    have ha : a < wireLimit := hfits a (by simp [bundles, inputWidths])
    have hb : b < wireLimit := hfits b (by simp [bundles, inputWidths])
    have hn : n < wireLimit := hfits n (by simp [bundles, outputWidths])
    have hlimit : ¬ b + 2 < wireLimit := by simpa [scratch] using hwide
    obtain ⟨hapos, hbpos, hnpos⟩ := hvalid
    refine ⟨b + 2, by simp [scratch], Nat.not_lt.mp hlimit, ?_⟩
    obtain ⟨c, x, y, quot, rem, hr, rfl, rfl, hquot, hrem, hexec, -⟩ := exec_divide enc ha hb hn
    refine .of_exec_eq hexec ?_
    exact divide_overflows hr.site (ne_nil_of_pos rfl hapos) (ne_nil_of_pos rfl hbpos)
      (ne_nil_of_pos hquot hnpos) (ne_nil_of_pos hrem hnpos) (hr.ready (by simp)) (hr.ready (by simp))
      (Circuit.Registers.drivable (by simp)) (Circuit.Registers.drivable (by simp)) hr.apart ha hb hlimit
  | _ => exact absurd (by simp [scratch]) hwide

/-! ### The condition -/

/-- The circuit that the recipe of a request draws, also if it is refused on the way. -/
def drawn (r : Request) : Circuit :=
  (r.build.exec .empty).2

theorem drawn_of_circuit {r : Request} {c : Circuit} (h : r.circuit = .ok c) : r.drawn = c := by
  rw [drawn, exec_of_circuit h]

theorem circuit_of_yields {r : Request} {P : Circuit → Prop}
    (h : r.build.Yields .empty fun _ c => P c) : ∃ c, r.circuit = .ok c ∧ P c := by
  obtain ⟨u, c, hexec, hP⟩ := h
  refine ⟨c, ?_, hP⟩
  rw [circuit, hexec]

theorem circuit_of_refuses {r : Request} {e : Error} (h : r.build.Refuses .empty e) :
    r.circuit = .error e := by
  unfold Refuses at h
  rw [circuit]
  rcases hexec : r.build.exec .empty with ⟨result, c⟩
  rw [hexec] at h
  cases h
  rfl

theorem circuit_of_overflows {r : Request} {widths : List Nat} (h : r.build.Overflows .empty widths) :
    ∃ n ∈ widths, wireLimit ≤ n ∧ r.circuit = .error (.tooLarge n) := by
  obtain ⟨n, hn, hle, hrefuses⟩ := h
  exact ⟨n, hn, hle, circuit_of_refuses hrefuses⟩

/-- **What can come of a request**: it has a circuit that serves it, it is refused for its widths, or
it is refused for a bundle that is too wide. -/
theorem circuit_cases (r : Request) :
    (r.Valid ∧ r.Fits ∧ ∃ c, r.circuit = .ok c ∧ c.Serves r.inputWidths r.outputWidths) ∨
    (¬ r.Valid ∧ (∀ n ∈ r.bundles, n < wireLimit) ∧ r.circuit = .error r.refusal ∧
      r.drawn.gates = #[]) ∨
    ((r.Valid ∨ ¬ ∀ n ∈ r.bundles, n < wireLimit) ∧
      ∃ n ∈ r.bundles ++ r.scratch, wireLimit ≤ n ∧ r.circuit = .error (.tooLarge n)) := by
  by_cases hbundles : ∀ n ∈ r.bundles, n < wireLimit
  · by_cases hvalid : r.Valid
    · by_cases hscratch : ∀ n ∈ r.scratch, n < wireLimit
      · have hfits : r.Fits := List.forall_mem_append.mpr ⟨hbundles, hscratch⟩
        exact .inl ⟨hvalid, hfits, circuit_of_yields (build_serves hvalid hfits)⟩
      · obtain ⟨n, hn, h⟩ := circuit_of_overflows (build_overflows_scratch hvalid hbundles hscratch)
        exact .inr (.inr ⟨.inl hvalid, n, List.mem_append_right _ hn, h⟩)
    · have hrefused := circuit_of_refuses (build_rejects hvalid hbundles).refuses
      obtain ⟨c', hexec, hgates⟩ := build_rejects hvalid hbundles
      refine .inr (.inl ⟨hvalid, hbundles, hrefused, ?_⟩)
      rw [drawn, hexec]
      exact hgates
  · obtain ⟨n, hn, h⟩ := circuit_of_overflows (build_overflows hbundles)
    exact .inr (.inr ⟨.inr hbundles, n, List.mem_append_left _ hn, h⟩)

/-- A request with a circuit has widths that the operation is defined for, and all bundles fit. -/
theorem valid_of_circuit {r : Request} {c : Circuit} (h : r.circuit = .ok c) : r.Valid ∧ r.Fits := by
  obtain ⟨hvalid, hfits, -⟩ | ⟨-, -, he, -⟩ | ⟨-, n, -, -, he⟩ := r.circuit_cases
  · exact ⟨hvalid, hfits⟩
  · cases h.symm.trans he
  · cases h.symm.trans he

/-- A circuit of a request serves it. -/
theorem serves_of_circuit {r : Request} {c : Circuit} (h : r.circuit = .ok c) :
    c.Serves r.inputWidths r.outputWidths := by
  obtain ⟨hvalid, hfits⟩ := valid_of_circuit h
  obtain ⟨c', hc', hserves⟩ := circuit_of_yields (build_serves hvalid hfits)
  obtain rfl : c = c' := Except.ok.inj (h.symm.trans hc')
  exact hserves

/-- The circuit of a request with two operands is what its operation makes of them. -/
theorem run_of_circuit {r : Request} {c : Circuit} {a b n : Nat}
    {op : Bundle → Bundle → Bundle → Build Unit} (hr : r.build = buildBinary a b n op)
    (hbundles : r.bundles = [a, b, n]) (h : r.circuit = .ok c) :
    ∃ x y out, x.length = a ∧ y.length = b ∧ out.length = n ∧
      (operands a b n).Registers [x, y] [out] ∧ (op x y out).exec (operands a b n) = (.ok (), c) := by
  have hfits : ∀ k ∈ [a, b, n], k < wireLimit := fun k hk =>
    (valid_of_circuit h).2 k (List.mem_append_left _ (hbundles ▸ hk))
  obtain ⟨x, y, out, hx, hy, hout, hinputs, houtputs, hexec⟩ :=
    exec_buildBinary op (hfits a (by simp)) (hfits b (by simp)) (hfits n (by simp))
  refine ⟨x, y, out, hx, hy, hout, ⟨wellFormed_operands a b n, hinputs, houtputs⟩, ?_⟩
  rw [← hexec, ← hr]
  exact exec_of_circuit h

/-- The circuit before the gates of an operation with one operand are appended. -/
def operand (a n : Nat) : Circuit := (Circuit.empty.withInput a).withOutput n

/-- The circuit of a request with one operand is what its operation makes of it. -/
theorem run_of_unary {r : Request} {c : Circuit} {a n : Nat} {op : Bundle → Bundle → Build Unit}
    (hr : r.build = addInput a >>= fun x => addOutput n >>= fun out => op x out)
    (hbundles : r.bundles = [a, n]) (h : r.circuit = .ok c) :
    ∃ x out, x.length = a ∧ out.length = n ∧ (operand a n).Registers [x] [out] ∧
      (op x out).exec (operand a n) = (.ok (), c) := by
  have hfits : ∀ k ∈ [a, n], k < wireLimit := fun k hk =>
    (valid_of_circuit h).2 k (List.mem_append_left _ (hbundles ▸ hk))
  have hrun := exec_of_circuit h
  rw [hr, exec_bind, Circuit.exec_addInput, if_pos (hfits a (by simp))] at hrun
  dsimp only at hrun
  rw [exec_bind, Circuit.exec_addOutput, if_pos (hfits n (by simp))] at hrun
  exact ⟨_, _, Circuit.length_nextBundle, Circuit.length_nextBundle,
    ⟨(Circuit.wellFormed_empty.withInput a).withOutput n, rfl, rfl⟩, hrun⟩

/-- A request has a circuit if its widths allow it. -/
theorem exists_circuit {r : Request} (hvalid : r.Valid) (hfits : r.Fits) : ∃ c, r.circuit = .ok c := by
  obtain ⟨c, hc, -⟩ := circuit_of_yields (build_serves hvalid hfits)
  exact ⟨c, hc⟩

end Request

open Catalogue in
/-- **Which requests have a circuit.** Whatever a catalogue has served before, it has a circuit for a
request, and room for it, exactly if the widths are ones the operation is defined for, no bundle that is
needed is too wide, and there is room for what the recipe draws. Once its first bundles are in place,
widths that the operation is not defined for are refused before any gate is appended, as an empty
bundle; by the cipher, as the length of its key or its number of rounds. Any other failure is for a
bundle that is too wide. A circuit that was made has the inputs and outputs of the request, and it
evaluates on all bits of these widths. -/
theorem request_has_circuit_iff (before : List Request) (r : Request) :
    ((∃ c, ((afterAll before).serve r).result = .ok c ∧ c.HasRoom) ↔
      r.Valid ∧ r.Fits ∧ r.drawn.HasRoom) ∧
    ((∀ n ∈ r.bundles, n < wireLimit) → ¬ r.Valid →
      ((afterAll before).serve r).result = .error r.refusal ∧ r.drawn.gates = #[]) ∧
    (∀ e, ((afterAll before).serve r).result = .error e →
      ¬ r.Valid ∧ e = r.refusal ∨
      ∃ n ∈ r.bundles ++ r.scratch, wireLimit ≤ n ∧ e = .tooLarge n) ∧
    ∀ c, ((afterAll before).serve r).result = .ok c →
      c.inputs.map List.length = r.inputWidths ∧ c.outputs.map List.length = r.outputWidths ∧
      ∀ bits : List (List Bool), bits.map List.length = r.inputWidths →
        ∃ values, c.evalBits bits = .ok values ∧ values.map List.length = r.outputWidths := by
  rw [(holds_afterAll before).result_eq r]
  obtain ⟨hvalid, hfits, c, hc, hserves⟩ | ⟨hvalid, hbundles, he, hgates⟩ |
    ⟨hcause, n, hn, hle, he⟩ := r.circuit_cases
  · refine ⟨?_, fun _ h => absurd hvalid h, fun e he => ?_, fun c' hc' => ?_⟩
    · rw [Request.drawn_of_circuit hc]
      refine ⟨?_, fun h => ⟨c, hc, h.2.2⟩⟩
      rintro ⟨c', hc', hroom⟩
      cases hc.symm.trans hc'
      exact ⟨hvalid, hfits, hroom⟩
    · cases hc.symm.trans he
    · cases hc.symm.trans hc'
      exact ⟨hserves.inputs, hserves.outputs, fun bits hbits => hserves.evaluates hbits⟩
  · refine ⟨iff_of_false ?_ fun h => hvalid h.1, fun _ _ => ⟨he, hgates⟩, fun e he' => ?_,
      fun c hc => ?_⟩
    · rintro ⟨c, hc, -⟩
      cases hc.symm.trans he
    · cases he.symm.trans he'
      exact .inl ⟨hvalid, rfl⟩
    · cases hc.symm.trans he
  · have hfits : ¬ r.Fits := fun h => absurd (h n hn) (Nat.not_lt.mpr hle)
    refine ⟨iff_of_false ?_ fun h => hfits h.2.1, fun hbundles hvalid => ?_, fun e he' => ?_,
      fun c hc => ?_⟩
    · rintro ⟨c, hc, -⟩
      cases hc.symm.trans he
    · rcases hcause with h | h
      · exact absurd h hvalid
      · exact absurd hbundles h
    · cases he.symm.trans he'
      exact .inr ⟨n, hn, hle, rfl⟩
    · cases hc.symm.trans he

/-- A division has a circuit, also after a request that has none. -/
theorem request_has_circuit_divide :
    ∃ c, ((Catalogue.afterAll [.equal 0]).serve (.divide .twosComplement 2 1 2)).result = .ok c ∧
      c.HasRoom :=
  (request_has_circuit_iff [.equal 0] (.divide .twosComplement 2 1 2)).1.mpr
    ⟨⟨by decide, by decide, by decide⟩, by decide, by decide +kernel⟩

/-- An adder with an operand that is too wide for a bundle: no width is zero, all are sizes, and yet
there is no circuit. -/
theorem wide_adder_has_no_circuit :
    (1 ≤ 2 ^ 60 ∧ 2 ^ 60 < 2 ^ 63) ∧
      (Catalogue.empty.serve (.addSub .addition .twosComplement (2 ^ 60) 1 4 .size)).result =
        .error (.tooLarge (2 ^ 60)) := by
  refine ⟨by decide, ?_⟩
  rw [Catalogue.holds_empty.result_eq]
  refine Request.circuit_of_refuses (Build.Refuses.bind ?_)
  exact Build.refuses_of_exec (Circuit.exec_addInput _ _) (by decide)

end BitCircuit
