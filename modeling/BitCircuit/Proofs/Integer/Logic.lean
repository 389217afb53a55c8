/-
# Constants, selection and bitwise operations

What the steps that treat each position on its own compute: a bundle of constants spells its
number, a selection is one of two bundles as a wire says, and copies, complements and the operations
with two operands act on their operands brought to the width of the result. A selection in place
passes one spare wire from position to position, which is none of the wires that it reads
(`Build.selectTo_reads`).

Key theorems: `Build.constantBundle_spec`, `Build.select_spec`, `Build.selectTo_spec`,
`Build.copyBundle_spec`, `Build.complement_spec`, `Build.bitwise_spec`.
-/
import BitCircuit.Integer.Logic
import BitCircuit.Proofs.Integer.Basic

namespace BitCircuit

theorem Word.signedBits_zero (n : Nat) : Word.signedBits 0 n = List.replicate n false := by
  simp [Word.signedBits, List.map_const']

/-- Cutting a number or widening it with zeros. -/
theorem toNat_resize_unsigned (n : Nat) (bs : List Bool) :
    Bits.toNat (Encoding.unsigned.resize n bs) = Bits.toNat bs % 2 ^ n := by
  have h : (Bits.toNat (Encoding.unsigned.resize n bs) : Int) = (Bits.toNat bs : Int) % 2 ^ n :=
    toNat_resize .unsigned n bs
  exact_mod_cast h

/-- A function of the first entries of pairs. -/
theorem map_zip_fst {α β γ : Type} {l : List α} {l' : List β} (h : l.length = l'.length) (f : α → γ) :
    ((l.zip l').map fun q => f q.1) = l.map f := by
  have hfst := List.map_fst_zip (Nat.le_of_eq h)
  calc ((l.zip l').map fun q => f q.1) = ((l.zip l').map Prod.fst).map f := by simp
    _ = l.map f := by rw [hfst]

/-- One choice for all positions. -/
theorem map_zip_choose {l l' : Bundle} (h : l.length = l'.length) (v : Valuation) (b : Bool) :
    ((l.zip l').map fun q => bif b then v q.1 else v q.2) = bif b then l.map v else l'.map v := by
  cases b with
  | true => exact map_zip_fst h v
  | false =>
    have hsnd := List.map_snd_zip (Nat.le_of_eq h.symm)
    calc ((l.zip l').map fun q => v q.2) = ((l.zip l').map Prod.snd).map v := by simp
      _ = l'.map v := by rw [hsnd]

/-- The selection that three gates make. -/
theorem xor_and_xor (t f b : Bool) : (((t ^^ f) && b) ^^ f) = bif b then t else f := by
  cases t <;> cases f <;> cases b <;> rfl

namespace Build

variable {c c' : Circuit} {D : Set Wire} {input : Valuation}

/-! ### Constants -/

variable (input) in
theorem constantBundle_spec {x : Word} {n : Nat} {ws : Bundle} (hc : c.WellFormed)
    (hD : ∀ w ∈ D, c.Allocated w) (h : (constantBundle x n).exec c = (.ok ws, c')) :
    c.Evolves ∅ c' ∧ c'.Signals input D ws (x.signedBits n) := by
  unfold constantBundle at h
  obtain ⟨-, -, h⟩ := exec_check_bind.mp h
  rw [← List.map_id' (x.signedBits n)]
  exact mapM_spec (r := fun _ => []) (g := fun b _ => b) (fun b c c' w hc _ h => constant_spec hc h)
    (fun b v v' _ => rfl) hc hD (by simp) h

/-! ### Selection on new wires -/

/-- One position of a selection, on new wires. -/
theorem selectNew_spec {t f choice w : Wire} (hc : c.WellFormed) (hf : c.Allocated f)
    (hchoice : c.Allocated choice)
    (h : (gate .xor t f >>= fun d => gate .and d choice >>= fun d => gate .xor d f).exec c = (.ok w, c')) :
    c.Makes c' [t, f, choice] w fun v => bif v choice then v t else v f := by
  obtain ⟨d, c₁, hxor, h⟩ := exec_bind_eq_ok.mp h
  obtain ⟨e, c₂, hand, h⟩ := exec_bind_eq_ok.mp h
  have hd : c.Makes c₁ [t, f, choice] d fun v => v t ^^ v f := (gate_spec hc hxor).mono (by simp)
  have he : c.Makes c₂ [t, f, choice] e fun v => (v t ^^ v f) && v choice := by
    refine hd.trans (gate_spec hd.wellFormed hand) (by simp) fun input => ?_
    rw [hd.value, hd.value_eq hc hchoice (Set.notMem_empty choice)]
    rfl
  refine he.trans (gate_spec he.wellFormed h) (by simp) fun input => ?_
  rw [he.value, he.value_eq hc hf (Set.notMem_empty f)]
  exact xor_and_xor _ _ _

variable (input) in
theorem select_spec {ifTrue ifFalse ws : Bundle} {choice : Wire} (hc : c.WellFormed)
    (hD : ∀ w ∈ D, c.Allocated w) (ht : ∀ w ∈ ifTrue, c.Settled D w)
    (hf : ∀ w ∈ ifFalse, c.Settled D w) (hchoice : c.Settled D choice)
    (h : (select ifTrue ifFalse choice).exec c = (.ok ws, c')) :
    c.Evolves ∅ c' ∧ c'.Signals input D ws
      (bif c.value input choice then ifTrue.map (c.value input) else ifFalse.map (c.value input)) := by
  unfold select at h
  obtain ⟨u, hwidth, h⟩ := exec_check_bind.mp h
  have hlen := requireWidth_eq_ok.mp hwidth
  rw [← map_zip_choose hlen.symm]
  refine mapM_spec (r := fun q => [q.1, q.2, choice])
    (g := fun q v => bif v choice then v q.1 else v q.2)
    (fun q c c' w hc hr h => selectNew_spec hc (hr q.2 (by simp)) (hr choice (by simp)) h)
    (fun q v v' hv => ?_) hc hD (fun q hq x hx => ?_) h
  · rw [hv q.1 (by simp), hv q.2 (by simp), hv choice (by simp)]
  · obtain ⟨hq₁, hq₂⟩ := List.of_mem_zip hq
    simp only [List.mem_cons, List.not_mem_nil, or_false] at hx
    rcases hx with rfl | rfl | rfl
    · exact ht _ hq₁
    · exact hf _ hq₂
    · exact hchoice

/-! ### Selection in place -/

section

variable {ifTrue ifFalse choice out temps : Bundle} {u : Unit}

/-- The checks in front of a selection: what is read is neither the result nor a temporary. -/
theorem selectTo_reads (h : (selectTo ifTrue ifFalse choice out temps).exec c = (.ok u, c')) :
    ∀ w ∈ ifTrue ++ ifFalse ++ choice, w ∉ {w | w ∈ out ∨ w ∈ temps} := by
  unfold selectTo at h
  iterate 4 obtain ⟨-, -, h⟩ := exec_check_bind.mp h
  obtain ⟨u₁, hout, h⟩ := exec_check_bind.mp h
  obtain ⟨u₂, htemps, h⟩ := exec_check_bind.mp h
  have hout := requireDistinct_eq_ok.mp hout out (by simp)
  have htemps := requireDistinct_eq_ok.mp htemps temps (by simp)
  intro w hw hm
  simp only [List.mem_append] at hw
  have hread : ∃ o ∈ [ifTrue, ifFalse, choice], w ∈ o := by simpa [or_assoc] using hw
  obtain ⟨o, ho, hwo⟩ := hread
  rcases hm with hm | hm
  · exact hout o ho w hm hwo
  · exact htemps o (List.mem_append_left [out] ho) w hm hwo

/-- One position of a selection, with a spare wire on the way. -/
theorem selectWire_spec {t f chosen spare o : Wire} (hc : c.WellFormed) (hspare : spare ∈ D)
    (hf : c.Settled D f) (hchosen : c.Settled D chosen)
    (h : (gateTo .xor t f spare >>= fun _ => gateTo .and spare chosen spare >>= fun _ =>
      gateTo .xor spare f o).exec c = (.ok u, c')) :
    c.Sets {o, spare} c' o fun v => bif v chosen then v t else v f := by
  obtain ⟨u₁, c₁, hxor, h⟩ := exec_bind_eq_ok.mp h
  obtain ⟨u₂, c₂, hand, h⟩ := exec_bind_eq_ok.mp h
  have hset₁ := gateTo_spec hc hxor
  have hset₂ := gateTo_spec hset₁.wellFormed hand
  have hset₃ := gateTo_spec hset₂.wellFormed h
  have hev := hset₁.toEvolves.trans_same hset₂.toEvolves
  have hsub : {spare} ⊆ D := Set.singleton_subset_iff.mpr hspare
  refine ⟨(hev.mono (by simp)).trans_same (hset₃.toEvolves.mono (by simp)), hset₃.readable,
    fun input => ?_⟩
  rw [hset₃.value, hset₂.value, hset₁.value, hf.value_eq hc hev hsub,
    hchosen.value_eq hc hset₁.toEvolves hsub]
  exact xor_and_xor _ _ _

variable (input) in
/-- **A selection is one of two bundles as the wire says.** -/
theorem selectTo_spec (hc : c.WellFormed) (ha : ∀ w ∈ ifTrue ++ ifFalse ++ choice, c.Allocated w)
    (hnd : out.Nodup) (h : (selectTo ifTrue ifFalse choice out temps).exec c = (.ok u, c')) :
    c.Evolves {w | w ∈ out ∨ w ∈ temps} c' ∧ ∃ chosen, choice = [chosen] ∧
      out.map (c'.value input) = bif c.value input chosen then ifTrue.map (c.value input)
        else ifFalse.map (c.value input) := by
  have hset : ∀ w ∈ ifTrue ++ ifFalse ++ choice, c.Settled {w | w ∈ out ∨ w ∈ temps} w :=
    fun w hw => ⟨ha w hw, .inl (selectTo_reads h w hw)⟩
  simp only [List.forall_mem_append] at hset
  obtain ⟨⟨ht, hf⟩, hchoice⟩ := hset
  unfold selectTo at h
  obtain ⟨u₁, hone, h⟩ := exec_check_bind.mp h
  iterate 4 obtain ⟨-, -, h⟩ := exec_check_bind.mp h
  obtain ⟨u₂, htemps, h⟩ := exec_check_bind.mp h
  obtain ⟨spare, hspare, h⟩ := exec_check_bind.mp h
  obtain ⟨chosen, hchosen, h⟩ := exec_check_bind.mp h
  obtain ⟨tf, htf, h⟩ := exec_check_bind.mp h
  obtain ⟨l, hl, h⟩ := exec_check_bind.mp h
  obtain ⟨hlen, rfl⟩ := inStep_eq_ok.mp htf
  obtain ⟨hlen', rfl⟩ := inStep_eq_ok.mp hl
  have hspare := mem_of_wireAt hspare
  have hnotout : spare ∉ out := requireDistinct_eq_ok.mp htemps temps (by simp) out (by simp) spare hspare
  have houts : ((ifTrue.zip ifFalse).zip out).map Prod.snd = out :=
    List.map_snd_zip (Nat.le_of_eq hlen'.symm)
  have hall := forM_spec input (D := {w | w ∈ out ∨ w ∈ temps}) (E := {spare}) (t := Prod.snd)
    (r := fun q => [q.1.1, q.1.2, chosen]) (g := fun q v => bif v chosen then v q.1.1 else v q.1.2)
    (Set.singleton_subset_iff.mpr (.inr hspare))
    (fun q c c' u hc hr h => selectWire_spec hc (.inr hspare) (hr q.1.2 (by simp))
      (hr chosen (by simp)) h)
    (fun q v v' hv => ?_) hc (by rwa [houts]) (fun w hw => ?_) (fun q hq x hx => ?_) h
  · rw [houts] at hall
    refine ⟨hall.1.mono ?_, chosen, ?_, ?_⟩
    · rintro w (hw | rfl)
      · exact .inl hw
      · exact .inr hspare
    · obtain ⟨w, rfl⟩ := List.length_eq_one_iff.mp (requireWidth_eq_ok.mp hone)
      exact congrArg (fun w => [w]) (Option.some.inj (wireAt_eq_ok.mp hchosen))
    · rw [hall.2, ← map_zip_choose hlen]
      exact map_zip_fst hlen' fun q : Wire × Wire =>
        bif c.value input chosen then c.value input q.1 else c.value input q.2
  · rw [hv q.1.1 (by simp), hv q.1.2 (by simp), hv chosen (by simp)]
  · rw [houts] at hw
    exact ⟨.inl hw, fun he => hnotout (he ▸ hw)⟩
  · obtain ⟨hq₁, hq₂⟩ := List.of_mem_zip (List.of_mem_zip hq).1
    simp only [List.mem_cons, List.not_mem_nil, or_false] at hx
    rcases hx with rfl | rfl | rfl
    · exact ht _ hq₁
    · exact hf _ hq₂
    · exact hchoice _ (mem_of_wireAt hchosen)

end

/-! ### One gate for each position -/

section

variable {x out : Bundle} {bs : List Bool} {u : Unit}

variable (input) in
/-- A wire of `out` driven from each wire in step with it. -/
theorem forM_inStep_spec {f : Wire → Wire → Build Unit} {g : Bool → Bool}
    (hf : ∀ x o c c' u, c.WellFormed → (f x o).exec c = (.ok u, c') → c.Sets {o} c' o fun v => g (v x))
    (hc : c.WellFormed) (hlen : x.length = out.length) (hnd : out.Nodup)
    (hs : c.Signals input {w | w ∈ out} x bs)
    (h : ((x.zip out).forM fun q => f q.1 q.2).exec c = (.ok u, c')) :
    c.Evolves {w | w ∈ out} c' ∧ out.map (c'.value input) = bs.map g := by
  have houts : (x.zip out).map Prod.snd = out := List.map_snd_zip (Nat.le_of_eq hlen.symm)
  have hall := forM_spec input (D := {w | w ∈ out}) (E := ∅) (t := Prod.snd) (r := fun q => [q.1])
    (g := fun q v => g (v q.1)) (Set.empty_subset _)
    (fun q c c' u hc _ h => by simpa using hf q.1 q.2 c c' u hc h)
    (fun q v v' hv => by rw [hv q.1 (by simp)]) hc (by rwa [houts]) (fun w hw => ?_)
    (fun q hq y hy => ?_) h
  · rw [houts, Set.union_empty] at hall
    refine ⟨hall.1, ?_⟩
    rw [hall.2, map_zip_fst hlen fun w => g (c.value input w), ← hs.values, List.map_map]
    rfl
  · rw [houts] at hw
    exact ⟨hw, Set.notMem_empty w⟩
  · rw [List.mem_singleton.mp hy]
    exact hs.settled _ (List.of_mem_zip hq).1

variable (input) in
/-- A copy is its source brought to the width of the copy. -/
theorem copyBundle_spec {source : Bundle} {enc : Encoding} (hc : c.WellFormed)
    (ha : ∀ w ∈ out, c.Allocated w) (hnd : out.Nodup) (hs : c.Signals input {w | w ∈ out} source bs)
    (h : (copyBundle source out enc).exec c = (.ok u, c')) :
    c.Evolves {w | w ∈ out} c' ∧ out.map (c'.value input) = enc.resize out.length bs := by
  unfold copyBundle at h
  obtain ⟨x, c₁, hx, h⟩ := exec_bind_eq_ok.mp h
  obtain ⟨l, hl, h⟩ := exec_check_bind.mp h
  obtain ⟨hlen, rfl⟩ := inStep_eq_ok.mp hl
  obtain ⟨hev, hsx⟩ := extend_spec input (D := {w | w ∈ out}) hc ha hs hx
  obtain ⟨hev', hvals⟩ := forM_inStep_spec input (g := id) (fun x o c c' u hc h => copyTo_spec hc h)
    hev.wellFormed hlen hnd hsx h
  rw [List.map_id] at hvals
  exact ⟨(hev.of_empty _).trans_same hev', hvals⟩

variable (input) in
/-- A complement is that of its operand brought to the width of the result. -/
theorem complement_spec {a : Bundle} (hc : c.WellFormed) (ha : ∀ w ∈ a ++ out, c.Allocated w)
    (hnd : out.Nodup) (h : (complement a out).exec c = (.ok u, c')) :
    c.Evolves {w | w ∈ out} c' ∧ out.map (c'.value input) =
      (Encoding.twosComplement.resize out.length (a.map (c.value input))).map (!·) := by
  obtain ⟨haa, hao⟩ := List.forall_mem_append.mp ha
  unfold complement at h
  obtain ⟨-, -, h⟩ := exec_check_bind.mp h
  obtain ⟨u₁, hdistinct, h⟩ := exec_check_bind.mp h
  obtain ⟨x, c₁, hx, h⟩ := exec_bind_eq_ok.mp h
  obtain ⟨l, hl, h⟩ := exec_check_bind.mp h
  obtain ⟨hlen, rfl⟩ := inStep_eq_ok.mp hl
  have hfree : ∀ w ∈ a, w ∉ {w | w ∈ out} := fun w hw ho =>
    requireDistinct_eq_ok.mp hdistinct out (by simp) a (by simp) w ho hw
  obtain ⟨hev, hsx⟩ := extend_spec input hc hao (Circuit.signals_self haa hfree) hx
  obtain ⟨hev', hvals⟩ := forM_inStep_spec input (g := (!·)) (fun x o c c' u hc h => invTo_spec hc h)
    hev.wellFormed hlen hnd hsx h
  exact ⟨(hev.of_empty _).trans_same hev', hvals⟩

variable (input) in
/-- One gate for each position combines two operands brought to the width of the result. -/
theorem bitwise_spec {kind : GateKind} {a b : Bundle} {enc : Encoding} (hc : c.WellFormed)
    (ha : ∀ w ∈ a ++ b ++ out, c.Allocated w) (hnd : out.Nodup)
    (h : (bitwise kind a b out enc).exec c = (.ok u, c')) :
    c.Evolves {w | w ∈ out} c' ∧ out.map (c'.value input) =
      List.zipWith kind.eval (enc.resize out.length (a.map (c.value input)))
        (enc.resize out.length (b.map (c.value input))) := by
  simp only [List.forall_mem_append] at ha
  obtain ⟨⟨haa, hab⟩, hao⟩ := ha
  unfold bitwise at h
  obtain ⟨-, -, h⟩ := exec_check_bind.mp h
  obtain ⟨u₁, hdistinct, h⟩ := exec_check_bind.mp h
  obtain ⟨x, c₁, hx, h⟩ := exec_bind_eq_ok.mp h
  obtain ⟨y, c₂, hy, h⟩ := exec_bind_eq_ok.mp h
  obtain ⟨xy, hxy, h⟩ := exec_check_bind.mp h
  obtain ⟨l, hl, h⟩ := exec_check_bind.mp h
  obtain ⟨hlen, rfl⟩ := inStep_eq_ok.mp hxy
  obtain ⟨hlen', rfl⟩ := inStep_eq_ok.mp hl
  have hfree : ∀ o ∈ [a, b], ∀ w ∈ o, w ∉ {w | w ∈ out} := fun o ho w hw hout =>
    requireDistinct_eq_ok.mp hdistinct out (by simp) o ho w hout hw
  have hsb : c.Signals input {w | w ∈ out} b (b.map (c.value input)) :=
    Circuit.signals_self hab (hfree b (by simp))
  obtain ⟨hev₁, hsx⟩ := extend_spec input hc hao (Circuit.signals_self haa (hfree a (by simp))) hx
  obtain ⟨hev₂, hsy⟩ := extend_spec input hev₁.wellFormed (hev₁.all_allocated hao)
    (hsb.evolves hc hev₁ (Set.empty_subset _)) hy
  have hsx := hsx.evolves hev₁.wellFormed hev₂ (Set.empty_subset _)
  have houts : ((x.zip y).zip out).map Prod.snd = out := List.map_snd_zip (Nat.le_of_eq hlen'.symm)
  have hall := forM_gateTo_spec input (D := {w | w ∈ out}) hev₂.wellFormed (by rwa [houts])
    (fun q hq => (List.of_mem_zip hq).2) (fun q hq => ?_) h
  · rw [houts] at hall
    refine ⟨((hev₁.trans_same hev₂).of_empty _).trans_same hall.1, ?_⟩
    rw [hall.2, map_zip_fst hlen' fun q : Wire × Wire =>
      kind.eval (c₂.value input q.1) (c₂.value input q.2), ← hsx.values, ← hsy.values, List.zipWith_map,
      List.zip, List.map_zipWith]
  · obtain ⟨hqx, hqy⟩ := List.of_mem_zip (List.of_mem_zip hq).1
    exact ⟨hsx.settled _ hqx, hsy.settled _ hqy⟩

end

end Build
end BitCircuit
