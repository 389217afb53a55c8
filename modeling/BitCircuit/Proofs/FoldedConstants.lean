/-
# Constants are folded away

In a circuit that is put together gate by gate, no gate computes with a constant: a gate that reads
a constant wire copies it. Replaying a circuit is the one call that takes gates as they are, so this
holds of what calls make of the empty circuit if none of them replays another one, and of every
circuit that a catalogue answers with (`constants_only_copied`).

A gate is folded in the circuit it is appended to. It stays so while the circuit grows, since a wire
that was there never becomes a constant later (`Circuit.Simplified.grows`).

Key definitions: `Circuit.ConstantsFolded`, `Circuit.Folds`.
Key theorems: `Circuit.upheld_folds`, `Request.keeps_build`, `constants_only_copied`.
-/
import BitCircuit.Proofs.Catalogue
import BitCircuit.Proofs.Reachable

namespace BitCircuit
namespace Circuit

variable {c c' : Circuit} {g : Gate} {w : Wire}

/-- Only gates that copy read constants. -/
def ConstantsFolded (c : Circuit) : Prop :=
  ∀ g ∈ c.gates.toList, ∀ w ∈ g.reads, c.constantValue? w ≠ none → g.kind = .copy

/-- A well-formed circuit all of whose gates are folded. -/
structure Folds (c : Circuit) : Prop extends c.WellFormed where
  simplified : ∀ g ∈ c.gates.toList, c.Simplified g

theorem Folds.constantsFolded (h : c.Folds) : c.ConstantsFolded := by
  intro g hg w hw hconst
  rcases h.simplified g hg with hcopy | ⟨hx, hy⟩
  · exact hcopy
  · have hmem : w = g.x ∨ w = g.y := by
      unfold Gate.reads at hw
      split at hw <;> simp_all
    rcases hmem with rfl | rfl
    · exact absurd hx hconst
    · exact absurd hy hconst

/-! ### Folded gates while a circuit grows -/

theorem Simplified.grows (h : c.Simplified g) (hgrows : c.Grows c') (hx : c.Allocated g.x)
    (hy : c.Allocated g.y) : c'.Simplified g := by
  rcases h with hcopy | ⟨hcx, hcy⟩
  · exact .inl hcopy
  · exact .inr ⟨hgrows.constantValue? hx hcx, hgrows.constantValue? hy hcy⟩

/-- A circuit that has grown by folded gates. -/
theorem Folds.grows {new : List Gate} (h : c.Folds) (hc' : c'.WellFormed) (hgrows : c.Grows c')
    (hgates : c'.gates.toList = c.gates.toList ++ new) (hnew : ∀ g ∈ new, c'.Simplified g) :
    c'.Folds := by
  refine ⟨hc', fun g hg => ?_⟩
  rw [hgates] at hg
  rcases List.mem_append.mp hg with hold | hg
  · obtain ⟨hx, hy, -⟩ := h.gate_allocated hold
    exact (h.simplified g hold).grows hgrows hx hy
  · exact hnew g hg

theorem folds_empty : empty.Folds :=
  ⟨wellFormed_empty, by simp [empty]⟩

theorem Folds.withInput (h : c.Folds) (n : Nat) : (c.withInput n).Folds :=
  h.grows (h.toWellFormed.withInput n) (grows_withInput n) (List.append_nil _).symm (by simp)

theorem Folds.withOutput (h : c.Folds) (n : Nat) : (c.withOutput n).Folds :=
  h.grows (h.toWellFormed.withOutput n) (grows_withOutput n) (List.append_nil _).symm (by simp)

/-- **The steps of operations keep all gates folded.** -/
theorem upheld_folds : Upheld Folds Set.univ where
  step := by
    intro c c' hs h
    have hc' := hs.wellFormed h.toWellFormed
    have hgrows := hs.extends.grows
    cases hs with
    | wires n => exact h.grows hc' hgrows (List.append_nil _).symm (by simp)
    | temps n => exact h.grows hc' hgrows (List.append_nil _).symm (by simp)
    | constant v _ =>
      have hgates := congrArg Array.toList (addConstant_eq (c := c) v).1
      exact h.grows hc' hgrows (hgates.trans (List.append_nil _).symm) (by simp)
    | gate g hg hsimple _ _ =>
      -- the wires that the new gate reads were there before it
      obtain ⟨hx, hy, -⟩ := requireGate_eq_ok.mp hg
      have hgates : (c.pushGate g).gates.toList = c.gates.toList ++ [g] := by simp [pushGate]
      refine h.grows hc' hgrows hgates fun g' hg' => ?_
      rw [List.mem_singleton.mp hg']
      exact hsimple.grows hgrows hx.allocated hy.allocated
  fresh _ _ := Set.mem_univ _

end Circuit

/-! ### Calls and requests -/

/-- Calls that replay no circuit fold all constants. -/
theorem Call.folds_afterAll {calls : List Call} (h : ∀ call ∈ calls, call.template? = none) :
    (Call.afterAll calls).Folds := by
  unfold Call.afterAll
  refine List.foldlRecOn calls _ Circuit.folds_empty fun c hc call hcall => ?_
  exact (keeps_of_template?_eq_none Circuit.upheld_folds (fun _ n hc => hc.withInput n)
    (fun _ n hc => hc.withOutput n) (h call hcall) c hc).1

namespace Request

open Build

variable {I : Circuit → Prop} (hI : Upheld I Set.univ)
  (hinput : ∀ (c : Circuit) (n : Nat), I c → I (c.withInput n))
  (houtput : ∀ (c : Circuit) (n : Nat), I c → I (c.withOutput n))

include hinput houtput in
theorem keeps_buildBinary {a b n : Nat} {op : Bundle → Bundle → Bundle → Build Unit}
    (hop : ∀ x y out, Keeps I (op x y out) fun _ => True) :
    Keeps I (buildBinary a b n op) fun _ => True := by
  unfold buildBinary
  refine .after (keeps_addInput hinput a) fun x => .after (keeps_addInput hinput b) fun y => ?_
  exact .after (keeps_addOutput houtput n) fun out => hop x y out

include hI hinput houtput

theorem keeps_buildMsb {dir : Direction} {enc : Encoding} {a b : Nat} {obj : Objective} :
    Keeps I (buildMsb dir enc a b obj) fun _ => True := by
  unfold buildMsb
  refine .after (keeps_addInput hinput a) fun x => .after (keeps_addInput hinput b) fun y => ?_
  refine .after (keeps_addOutput houtput 1) fun out => .after (keeps_adderTemps hI obj) fun temps => ?_
  exact keeps_sumBit hI (fun _ _ => Set.mem_univ _) fun _ _ => Set.mem_univ _

/-- The recipe of a request keeps what the steps of operations keep and what the registration of
inputs and outputs keeps. -/
theorem keeps_build (r : Request) : Keeps I r.build fun _ => True := by
  have hall : ∀ b : Bundle, ∀ w ∈ b, w ∈ Set.univ := fun _ _ _ => Set.mem_univ _
  have hin := keeps_addInput hinput
  have hout := keeps_addOutput houtput
  have htemps : ∀ n, Keeps I (addTemps n) fun _ => True := fun n => (keeps_addTemps hI n).any
  cases r with
  | addSub dir enc a b n obj =>
    refine keeps_buildBinary hinput houtput fun x y out => ?_
    exact .after (keeps_adderTemps hI obj) fun temps => keeps_addSub hI (hall out) (hall temps)
  | addSubConst dir a b v n obj =>
    refine .after (hin a) fun x => .after (keeps_constantBundle hI _ b) fun y => ?_
    refine .after (hout n) fun out => .after (keeps_adderTemps hI obj) fun temps => ?_
    exact keeps_addSub hI (hall out) (hall temps)
  | addMsb a obj => exact keeps_buildMsb hI hinput houtput
  | subMsb enc a b obj => exact keeps_buildMsb hI hinput houtput
  | multiply enc a b n obj =>
    exact keeps_buildBinary hinput houtput fun x y out => keeps_multiply hI (hall out)
  | divide enc a b n =>
    refine .after (hin a) fun x => .after (hin b) fun y => ?_
    refine .after (hout n) fun quot => .after (hout n) fun rem => ?_
    exact keeps_divide hI (hall quot) (hall rem)
  | equal a => exact keeps_buildBinary hinput houtput fun x y out => keeps_equal hI (hall out)
  | notEqual a => exact keeps_buildBinary hinput houtput fun x y out => keeps_notEqual hI (hall out)
  | lessThan enc a b obj =>
    exact keeps_buildBinary hinput houtput fun x y out => keeps_lessThan hI (hall out)
  | atLeast enc a b obj =>
    exact keeps_buildBinary hinput houtput fun x y out => keeps_atLeast hI (hall out)
  | select a =>
    refine .after (hin a) fun ifTrue => .after (hin a) fun ifFalse => .after (hin 1) fun choice => ?_
    refine .after (hout a) fun out => .after (htemps 1) fun temps => ?_
    exact inPlace_selectTo hI.inPlace (hall out) (hall temps)
  | magnitude a obj =>
    refine .after (hin a) fun x => .after (hout a) fun out => .after (hout 1) fun sign => ?_
    refine .after (htemps 2) fun temps => .after (keeps_magnitude hI (hall temps) (hall out)) fun _ => ?_
    exact .after .checked fun top => .after .checked fun s => keeps_copyTo hI (Set.mem_univ s)
  | applySign a obj =>
    refine .after (hin a) fun x => .after (hin 1) fun sign => .after (hout a) fun out => ?_
    exact .after (htemps 2) fun temps => keeps_applySign hI (hall temps) (hall out)
  | negate a obj =>
    refine .after (hin a) fun x => .after (hout a) fun out => ?_
    exact .after (htemps 2) fun temps => keeps_negate hI (hall temps) (hall out)
  | isZero a => exact .after (hin a) fun x => .after (hout 1) fun out => keeps_isZero hI (hall out)
  | complement a =>
    exact .after (hin a) fun x => .after (hout a) fun out => inPlace_complement hI.inPlace (hall out)
  | bitwise op a b n =>
    exact keeps_buildBinary hinput houtput fun x y out => inPlace_bitwise hI.inPlace (hall out)
  | aes rounds =>
    refine .after .checked fun keyWidth => ?_
    exact keeps_buildBinary hinput houtput fun x y out => keeps_encrypt hI (hall out)

end Request

theorem Request.folds_circuit {r : Request} {c : Circuit} (h : r.circuit = .ok c) : c.Folds := by
  have hkeeps := keeps_build Circuit.upheld_folds (fun _ n hc => hc.withInput n)
    (fun _ n hc => hc.withOutput n) r .empty Circuit.folds_empty
  unfold Request.circuit at h
  rcases hr : r.build.exec .empty with ⟨result, c'⟩
  rw [hr] at h hkeeps
  cases result with
  | ok u =>
    cases h
    exact hkeeps.1
  | error e => cases h

/-- **Constants are folded away.** In a circuit that calls make of the empty one without replaying
another, whether they are refused or not, and in every circuit that a catalogue answers with,
whatever it was asked before, only gates that copy read constants. -/
theorem constants_only_copied :
    (∀ calls : List Call, (∀ call ∈ calls, call.template? = none) →
      (Call.afterAll calls).ConstantsFolded) ∧
    ∀ (before : List Request) (r : Request) (c : Circuit),
      ((Catalogue.afterAll before).serve r).result = .ok c → c.ConstantsFolded := by
  constructor
  · intro calls h
    exact (Call.folds_afterAll h).constantsFolded
  · intro before r c h
    have hcircuit : r.circuit = .ok c := by
      rw [← (Catalogue.holds_afterAll before).result_eq, h]
    exact (Request.folds_circuit hcircuit).constantsFolded

/-- An inverter and a copy take the place of gates that read the constant one, after a call that is
refused; and the upper bit of a product of two bits is a copy of the constant zero. -/
theorem constants_only_copied_one_and_zero :
    (∃ c, c = Call.afterAll [.addInput 1, .addOutput 2, .constant true, .gateTo .and ⟨3⟩ ⟨0⟩ ⟨0⟩,
        .gateTo .xor ⟨0⟩ ⟨3⟩ ⟨1⟩, .gateTo .or ⟨3⟩ ⟨0⟩ ⟨2⟩] ∧
      c.gates = #[⟨.inv, ⟨0⟩, ⟨0⟩, ⟨1⟩⟩, ⟨.copy, ⟨3⟩, ⟨3⟩, ⟨2⟩⟩] ∧ c.ConstantsFolded) ∧
    ∃ c, ((Catalogue.afterAll []).serve (.multiply .unsigned 1 1 2 .size)).result = .ok c ∧
      c.gates.back? = some ⟨.copy, ⟨6⟩, ⟨6⟩, ⟨3⟩⟩ ∧ c.state? ⟨6⟩ = some (.constant false) ∧
      c.ConstantsFolded := by
  constructor
  · exact ⟨_, rfl, by decide +kernel, constants_only_copied.1 _ (by simp [Call.template?])⟩
  · have hproduct : (((Catalogue.afterAll []).serve (.multiply .unsigned 1 1 2 .size)).result.map
        fun c => (c.gates.back?, c.state? ⟨6⟩)) =
        .ok (some ⟨.copy, ⟨6⟩, ⟨6⟩, ⟨3⟩⟩, some (.constant false)) := by
      decide +kernel
    cases hc : ((Catalogue.afterAll []).serve (.multiply .unsigned 1 1 2 .size)).result with
    | error e =>
      rw [hc] at hproduct
      cases hproduct
    | ok c =>
      rw [hc] at hproduct
      obtain ⟨hlast, hzero⟩ := Prod.mk.inj (Except.ok.inj hproduct)
      exact ⟨c, rfl, hlast, hzero, constants_only_copied.2 _ _ _ hc⟩

/-- A circuit that is replayed keeps its gates: here a conjunction reads the constant one. -/
example : (Call.afterAll [.addInput 1, .constant true, .addOutput 1,
    .instantiate (Call.afterAll [.addInput 2, .addOutput 1, .gateTo .and ⟨0⟩ ⟨1⟩ ⟨2⟩])
      [[⟨0⟩, ⟨1⟩]] [[⟨2⟩]]]).gates = #[⟨.and, ⟨0⟩, ⟨1⟩, ⟨2⟩⟩] := by
  decide +kernel

end BitCircuit
