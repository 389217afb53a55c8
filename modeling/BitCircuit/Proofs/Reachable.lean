/-
# The circuits that can be built

A circuit is built from the empty one by calls of the library's operations, with any arguments
and whether they are refused or not (`Reachable`). A call may replay a circuit that was built
before. Every such circuit is well formed, and no call takes anything away from a circuit
(`reachable_invariant`).

Key definitions: `Call`, `Call.run`, `Call.written?`, `Reachable`.
Key theorems: `Call.wellFormed`, `Call.grows`, `Reachable.wellFormed`, `reachable_invariant`.
-/
import BitCircuit.Circuit.Instantiate
import BitCircuit.Catalogue.Request
import BitCircuit.Proofs.Integer.Upkeep
import BitCircuit.Proofs.Aes.Upkeep

namespace BitCircuit

/-- An operation of the library with its arguments. -/
inductive Call where
  | newWire
  | newBundle (width : Nat)
  | addInput (width : Nat)
  | addOutput (width : Nat)
  | addTemps (width : Nat)
  | constant (v : Bool)
  | constantBundle (x : Word) (width : Nat)
  | gate (kind : GateKind) (x y : Wire)
  | gateTo (kind : GateKind) (x y out : Wire)
  | inv (x : Wire)
  | invTo (x out : Wire)
  | copyTo (x out : Wire)
  | instantiate (template : Circuit) (ins outs : List Bundle)
  | addRipple (a b out temps : Bundle) (enc : Encoding) (dir : Direction)
  | addLookahead (a b out : Bundle) (enc : Encoding) (dir : Direction)
  | add (a b out temps : Bundle) (enc : Encoding) (obj : Objective)
  | subtract (a b out temps : Bundle) (enc : Encoding) (obj : Objective)
  | sumBit (a b out temps : Bundle) (position : Nat) (enc : Encoding) (dir : Direction)
    (obj : Objective)
  | complement (a out : Bundle)
  | bitwise (op : BitwiseOp) (a b out : Bundle) (enc : Encoding)
  | select (ifTrue ifFalse choice out temps : Bundle)
  | isZero (a out : Bundle)
  | equal (a b out : Bundle)
  | notEqual (a b out : Bundle)
  | lessThan (a b out : Bundle) (enc : Encoding) (obj : Objective)
  | atLeast (a b out : Bundle) (enc : Encoding) (obj : Objective)
  | multiply (a b out : Bundle) (obj : Objective) (enc : Encoding)
  | divide (a b quot rem : Bundle) (enc : Encoding) (obj : Objective)
  | negate (a out temps : Bundle) (obj : Objective)
  | magnitude (a out temps : Bundle) (obj : Objective)
  | applySign (a sign out temps : Bundle) (obj : Objective)
  | substituteByte (a out : Bundle)
  | mixColumns (state out : Bundle)
  | encrypt (message expandedKey ciphertext : Bundle)

namespace Call

/-- Runs a call. What it returns is not kept: a later call may name any wire. -/
def run : Call → Build Unit
  | newWire => discard Build.newWire
  | newBundle width => discard (Build.newBundle width)
  | addInput width => discard (Build.addInput width)
  | addOutput width => discard (Build.addOutput width)
  | addTemps width => discard (Build.addTemps width)
  | constant v => discard (Build.constant v)
  | constantBundle x width => discard (Build.constantBundle x width)
  | gate kind x y => discard (Build.gate kind x y)
  | gateTo kind x y out => Build.gateTo kind x y out
  | inv x => discard (Build.inv x)
  | invTo x out => Build.invTo x out
  | copyTo x out => Build.copyTo x out
  | instantiate template ins outs => Build.instantiate template ins outs
  | addRipple a b out temps enc dir => Build.addRipple a b out temps enc dir
  | addLookahead a b out enc dir => Build.addLookahead a b out enc dir
  | add a b out temps enc obj => Build.add a b out temps enc obj
  | subtract a b out temps enc obj => Build.subtract a b out temps enc obj
  | sumBit a b out temps position enc dir obj => Build.sumBit a b out temps position enc dir obj
  | complement a out => Build.complement a out
  | bitwise op a b out enc => Build.bitwise op.kind a b out enc
  | select ifTrue ifFalse choice out temps => Build.selectTo ifTrue ifFalse choice out temps
  | isZero a out => Build.isZero a out
  | equal a b out => Build.equal a b out
  | notEqual a b out => Build.notEqual a b out
  | lessThan a b out enc obj => Build.lessThan a b out enc obj
  | atLeast a b out enc obj => Build.atLeast a b out enc obj
  | multiply a b out obj enc => Build.multiply a b out obj enc
  | divide a b quot rem enc obj => Build.divide a b quot rem enc obj
  | negate a out temps obj => Build.negate a out temps obj
  | magnitude a out temps obj => Build.magnitude a out temps obj
  | applySign a sign out temps obj => Build.applySign a sign out temps obj
  | substituteByte a out => Build.substituteByte a out
  | mixColumns state out => Build.mixColumns state out
  | encrypt message expandedKey ciphertext => Build.encrypt message expandedKey ciphertext

/-- The circuit that a call replays, if it replays one. -/
def template? : Call → Option Circuit
  | instantiate template _ _ => some template
  | _ => none

/-- The bundles that an operation on bundles is given to write to: its results and its
temporaries. There are none for a call that allocates, appends one gate or replays a circuit. -/
def written? : Call → Option (List Bundle)
  | addRipple _ _ out temps _ _ => some [out, temps]
  | addLookahead _ _ out _ _ => some [out]
  | add _ _ out temps _ _ => some [out, temps]
  | subtract _ _ out temps _ _ => some [out, temps]
  | sumBit _ _ out temps _ _ _ _ => some [out, temps]
  | complement _ out => some [out]
  | bitwise _ _ _ out _ => some [out]
  | select _ _ _ out temps => some [out, temps]
  | isZero _ out => some [out]
  | equal _ _ out => some [out]
  | notEqual _ _ out => some [out]
  | lessThan _ _ out _ _ => some [out]
  | atLeast _ _ out _ _ => some [out]
  | multiply _ _ out _ _ => some [out]
  | divide _ _ quot rem _ _ => some [quot, rem]
  | negate _ out temps _ => some [out, temps]
  | magnitude _ out temps _ => some [out, temps]
  | applySign _ _ out temps _ => some [out, temps]
  | substituteByte _ out => some [out]
  | mixColumns _ out => some [out]
  | encrypt _ _ ciphertext => some [ciphertext]
  | _ => none

/-- The circuit after a call, which may have been refused. -/
def after (call : Call) (c : Circuit) : Circuit := (call.run.exec c).2

end Call

/-- The circuits that calls make of the empty one. A circuit that is replayed was made by calls
itself. -/
inductive Reachable : Circuit → Prop
  | empty : Reachable .empty
  | call {c : Circuit} (call : Call) : Reachable c → (∀ t ∈ call.template?, Reachable t) →
    Reachable (call.after c)

namespace Build

variable {I : Circuit → Prop}

theorem Keeps.discard {α : Type} {Q : α → Prop} {x : Build α} (h : Keeps I x Q) :
    Keeps I (Functor.discard x) fun _ => True := by
  exact Keeps.after (f := fun _ => Pure.pure ()) h fun _ => .pure trivial

theorem keeps_addInput (hinput : ∀ (c : Circuit) (n : Nat), I c → I (c.withInput n)) (n : Nat) :
    Keeps I (addInput n) fun _ => True := by
  intro c hc
  rw [Circuit.exec_addInput]
  split
  · exact ⟨hinput c n hc, fun _ _ => trivial⟩
  · exact ⟨hc, fun _ _ => trivial⟩

theorem keeps_addOutput (houtput : ∀ (c : Circuit) (n : Nat), I c → I (c.withOutput n)) (n : Nat) :
    Keeps I (addOutput n) fun _ => True := by
  intro c hc
  rw [Circuit.exec_addOutput]
  split
  · exact ⟨houtput c n hc, fun _ _ => trivial⟩
  · exact ⟨hc, fun _ _ => trivial⟩

/-- Replaying keeps what allocation and the replayed gates keep. Each of these has the kind of a gate of
the template, and one wire in both places if that gate has. -/
theorem keeps_replay (hI : Upheld I Set.univ) (template : Circuit)
    (hgate : ∀ (c : Circuit) (g : Gate), c.requireGate g = .ok () →
      (∃ t ∈ template.gates.toList, g.kind = t.kind ∧ (t.x = t.y → g.x = g.y)) → I c → I (c.pushGate g))
    (ins outs : List Bundle) : Keeps I (instantiate template ins outs) fun _ => True := by
  have hdrive : ∀ g, (∃ t ∈ template.gates.toList, g.kind = t.kind ∧ (t.x = t.y → g.x = g.y)) →
      Keeps I (drive g) fun _ => True := by
    intro g hg c hc
    rw [exec_drive]
    cases hr : c.requireGate g with
    | ok u => exact ⟨hgate c g hr hg hc, fun _ _ => trivial⟩
    | error e => exact ⟨hc, fun _ _ => trivial⟩
  have hwire : ∀ s w, Keeps I (hostWire s w) fun _ => True := by
    intro s w
    unfold hostWire
    split
    · exact .pure trivial
    · split
      · exact keeps_constant hI _
      · exact (keeps_newWire hI).any
  unfold instantiate
  refine .of_get fun c hc => Keeps.any (Q := fun _ => True) ?_ c hc
  refine .after .checked fun _ => .after .checked fun bound => .after .checked fun pairs => ?_
  refine .after (Keeps.mapM (R := fun _ => True) fun p _ => hwire p.1 p.2) fun table => ?_
  dsimp only
  rw [forM_array]
  refine .forM fun t ht => ?_
  refine .bind (.check fun _ hx => hx) fun x hx => .bind (.check fun _ hy => hy) fun y hy => ?_
  refine .after .checked fun out => hdrive _ ⟨t, ht, rfl, fun hxy => ?_⟩
  rw [hxy] at hx
  exact Except.ok.inj (hx.symm.trans hy)

/-- Replaying keeps what allocation and all gates keep. -/
theorem keeps_instantiate (hI : Upheld I Set.univ)
    (hgate : ∀ (c : Circuit) (g : Gate), c.requireGate g = .ok () → I c → I (c.pushGate g))
    (template : Circuit) (ins outs : List Bundle) :
    Keeps I (instantiate template ins outs) fun _ => True :=
  keeps_replay hI template (fun c g hr _ => hgate c g hr) ins outs

end Build

namespace Call

variable {c : Circuit}

/-- An operation on bundles keeps what the steps of operations keep, if it may drive the
bundles it is given to write to. -/
theorem keeps_operation {I : Circuit → Prop} {free : Set Wire} (hI : Upheld I free) {call : Call}
    {written : List Bundle} (h : call.written? = some written)
    (hfree : ∀ b ∈ written, ∀ w ∈ b, w ∈ free) : Build.Keeps I call.run fun _ => True := by
  cases call with
  | addRipple a b out temps enc dir =>
    cases h
    exact Build.inPlace_addRipple hI.inPlace (hfree out (by simp)) (hfree temps (by simp))
  | addLookahead a b out enc dir =>
    cases h
    exact Build.keeps_addLookahead hI (hfree out (by simp))
  | add a b out temps enc obj =>
    cases h
    exact Build.keeps_addSub hI (hfree out (by simp)) (hfree temps (by simp))
  | subtract a b out temps enc obj =>
    cases h
    exact Build.keeps_addSub hI (hfree out (by simp)) (hfree temps (by simp))
  | sumBit a b out temps position enc dir obj =>
    cases h
    exact Build.keeps_sumBit hI (hfree out (by simp)) (hfree temps (by simp))
  | complement a out =>
    cases h
    exact Build.inPlace_complement hI.inPlace (hfree out (by simp))
  | bitwise op a b out enc =>
    cases h
    exact Build.inPlace_bitwise hI.inPlace (hfree out (by simp))
  | select ifTrue ifFalse choice out temps =>
    cases h
    exact Build.inPlace_selectTo hI.inPlace (hfree out (by simp)) (hfree temps (by simp))
  | isZero a out =>
    cases h
    exact Build.keeps_isZero hI (hfree out (by simp))
  | equal a b out =>
    cases h
    exact Build.keeps_equal hI (hfree out (by simp))
  | notEqual a b out =>
    cases h
    exact Build.keeps_notEqual hI (hfree out (by simp))
  | lessThan a b out enc obj =>
    cases h
    exact Build.keeps_lessThan hI (hfree out (by simp))
  | atLeast a b out enc obj =>
    cases h
    exact Build.keeps_atLeast hI (hfree out (by simp))
  | multiply a b out obj enc =>
    cases h
    exact Build.keeps_multiply hI (hfree out (by simp))
  | divide a b quot rem enc obj =>
    cases h
    exact Build.keeps_divide hI (hfree quot (by simp)) (hfree rem (by simp))
  | negate a out temps obj =>
    cases h
    exact Build.keeps_negate hI (hfree temps (by simp)) (hfree out (by simp))
  | magnitude a out temps obj =>
    cases h
    exact Build.keeps_magnitude hI (hfree temps (by simp)) (hfree out (by simp))
  | applySign a sign out temps obj =>
    cases h
    exact Build.keeps_applySign hI (hfree temps (by simp)) (hfree out (by simp))
  | substituteByte a out =>
    cases h
    exact Build.keeps_substituteByte hI (hfree out (by simp))
  | mixColumns state out =>
    cases h
    exact Build.keeps_mixColumns hI (hfree out (by simp))
  | encrypt message expandedKey ciphertext =>
    cases h
    exact Build.keeps_encrypt hI (hfree ciphertext (by simp))
  | _ => cases h

/-- A call that replays no circuit keeps what the steps of operations keep and what the
registration of inputs and outputs keeps. -/
theorem keeps_of_template?_eq_none {I : Circuit → Prop} (hI : Upheld I Set.univ)
    (hinput : ∀ (c : Circuit) (n : Nat), I c → I (c.withInput n))
    (houtput : ∀ (c : Circuit) (n : Nat), I c → I (c.withOutput n)) {call : Call}
    (h : call.template? = none) : Build.Keeps I call.run fun _ => True := by
  cases hw : call.written? with
  | some written => exact keeps_operation hI hw fun _ _ _ _ => Set.mem_univ _
  | none =>
    cases call with
    | newWire => exact (Build.keeps_newWire hI).discard
    | newBundle width => exact (Build.keeps_newBundle hI width).discard
    | addInput width => exact (Build.keeps_addInput hinput width).discard
    | addOutput width => exact (Build.keeps_addOutput houtput width).discard
    | addTemps width => exact (Build.keeps_addTemps hI width).discard
    | constant v => exact (Build.keeps_constant hI v).discard
    | constantBundle x width => exact (Build.keeps_constantBundle hI x width).discard
    | gate kind x y => exact (Build.keeps_gate hI).discard
    | gateTo kind x y out => exact Build.keeps_gateTo hI (Set.mem_univ out)
    | inv x => exact (Build.keeps_inv hI).discard
    | invTo x out => exact Build.keeps_invTo hI (Set.mem_univ out)
    | copyTo x out => exact Build.keeps_copyTo hI (Set.mem_univ out)
    | instantiate template ins outs => cases h
    | _ => cases hw

/-- A call keeps what the steps of operations keep, what all gates keep, and what the
registration of inputs and outputs keeps. -/
theorem keeps {I : Circuit → Prop} (hI : Upheld I Set.univ)
    (hgate : ∀ (c : Circuit) (g : Gate), c.requireGate g = .ok () → I c → I (c.pushGate g))
    (hinput : ∀ (c : Circuit) (n : Nat), I c → I (c.withInput n))
    (houtput : ∀ (c : Circuit) (n : Nat), I c → I (c.withOutput n)) (call : Call) :
    Build.Keeps I call.run fun _ => True := by
  cases call with
  | instantiate template ins outs => exact Build.keeps_instantiate hI hgate template ins outs
  | _ => exact keeps_of_template?_eq_none hI hinput houtput rfl

/-- A call keeps a circuit well formed. -/
theorem wellFormed (call : Call) (h : c.WellFormed) : (call.after c).WellFormed :=
  (keeps (I := Circuit.WellFormed) ⟨fun hs => hs.wellFormed, fun _ _ => Set.mem_univ _⟩
    (fun _ _ hg hc => hc.pushGate hg) (fun _ n hc => hc.withInput n) (fun _ n hc => hc.withOutput n)
    call c h).1

/-- A call takes nothing away from a circuit. -/
theorem grows (call : Call) (c : Circuit) : c.Grows (call.after c) := by
  refine (keeps (I := c.Grows) ⟨fun hs hc => hc.trans hs.extends.grows, fun _ _ => Set.mem_univ _⟩
    (fun c' g hg hc => ?_) (fun c' n hc => ?_) (fun c' n hc => ?_) call c (.refl c)).1
  · exact hc.trans (Circuit.extends_pushGate hg (Set.mem_univ _)).grows
  · exact hc.trans (Circuit.grows_withInput n)
  · exact hc.trans (Circuit.grows_withOutput n)

end Call

/-- The circuit that calls make of the empty one. -/
def Call.afterAll (calls : List Call) : Circuit :=
  calls.foldl (fun c call => call.after c) .empty

theorem reachable_afterAll {calls : List Call} (h : ∀ call ∈ calls, call.template? = none) :
    Reachable (Call.afterAll calls) := by
  have hfrom : ∀ (calls : List Call) (c : Circuit), Reachable c →
      (∀ call ∈ calls, call.template? = none) →
      Reachable (calls.foldl (fun c call => call.after c) c) := by
    intro calls
    induction calls with
    | nil => exact fun _ hc _ => hc
    | cons call calls ih =>
      intro c hc h
      obtain ⟨hcall, hcalls⟩ := List.forall_mem_cons.mp h
      exact ih _ (.call call hc (by simp [hcall])) hcalls
  exact hfrom calls .empty .empty h

theorem Reachable.wellFormed {c : Circuit} (h : Reachable c) : c.WellFormed := by
  induction h with
  | empty => exact Circuit.wellFormed_empty
  | call call _ _ ih _ => exact call.wellFormed ih

/-- **Every circuit that can be built is well formed, and only grows.** Its gates lie on wires
of the circuit, none of them drives an input or a constant, and no call takes anything away. -/
theorem reachable_invariant {c : Circuit} (h : Reachable c) :
    c.WellFormed ∧
      (∀ g ∈ c.gates.toList, c.Allocated g.x ∧ c.Allocated g.y ∧ c.Allocated g.out ∧
        ¬ c.Given g.out) ∧
      ∀ call : Call, c.Grows (call.after c) := by
  refine ⟨h.wellFormed, fun g hg => ?_, fun call => call.grows c⟩
  obtain ⟨hx, hy, hout⟩ := h.wellFormed.gate_allocated hg
  exact ⟨hx, hy, hout, h.wellFormed.not_given_out hg⟩

/-- The conjunction of two inputs, after a call that would drive an input and is refused. -/
theorem reachable_invariant_conjunction :
    ∃ c : Circuit, Reachable c ∧ c.gates = #[⟨.and, ⟨0⟩, ⟨1⟩, ⟨2⟩⟩] ∧ c.WellFormed ∧
      ∀ call : Call, c.Grows (call.after c) := by
  have h : Reachable (Call.afterAll
      [.addInput 2, .addOutput 1, .invTo ⟨0⟩ ⟨1⟩, .gateTo .and ⟨0⟩ ⟨1⟩ ⟨2⟩]) :=
    reachable_afterAll (by simp [Call.template?])
  obtain ⟨hwf, -, hgrows⟩ := reachable_invariant h
  exact ⟨_, h, by decide, hwf, hgrows⟩

end BitCircuit
