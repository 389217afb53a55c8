/-
# The network computes the substitution

The network is run on values of any type that gates can be computed on (`network`). A map that
respects gates takes one run to another (`network_map`). Run on columns of 256 bits, with one bit
for each byte, the network gives all substitutes at once; each row of that run is a run on the
bits of one byte (`network_byteBits`). The gates that a circuit gets follow the run on bits
(`Build.foldlM_addSignal_yields`).

Key definitions: `network`, `GateKind.evalAll`, `bitColumn`.
Key theorems: `network_map`, `network_byteBits`, `Build.substituteByte_yields`.
-/
import BitCircuit.Proofs.Aes.Field
import BitCircuit.Proofs.Bundle
import BitCircuit.Proofs.Live
import BitCircuit.Aes.Substitution

namespace BitCircuit

variable {α β : Type}

/-! ### Entries of tables -/

theorem entry_eq_ok {table : Array α} {i : Nat} {v : α} :
    entry table i = .ok v ↔ table.toList[i]? = some v := by
  unfold entry
  rw [Array.getElem?_toList]
  cases table[i]? with
  | some v' => simp
  | none => simp

theorem ok_of_toOption {x : Except Error α} {a : α} (h : x.toOption = some a) : x = .ok a := by
  cases x with
  | ok b => exact congrArg Except.ok (Option.some.inj h)
  | error e => cases h

/-- A gate on 256 values at once. -/
def GateKind.evalAll : GateKind → BitVec 256 → BitVec 256 → BitVec 256
  | .xor, x, y => x ^^^ y
  | .nxor, x, y => ~~~(x ^^^ y)
  | .and, x, y => x &&& y
  | .or, x, y => x ||| y
  | .inv, x, _ => ~~~x
  | .copy, x, _ => x

theorem GateKind.getLsbD_evalAll (kind : GateKind) (x y : BitVec 256) {i : Nat} (hi : i < 256) :
    (kind.evalAll x y).getLsbD i = kind.eval (x.getLsbD i) (y.getLsbD i) := by
  cases kind <;> simp [evalAll, eval, hi]

namespace Aes

open Bytes

/-! ### Running the network -/

/-- The value of a gate, from those of the signals. -/
def NetworkGate.value (op : GateKind → α → α → α) (values : Array α) (g : NetworkGate) :
    Except Error α := do
  let x ← entry values g.x
  let y ← entry values g.y
  return op g.kind x y

/-- Adds the value of one gate. -/
def addValue (op : GateKind → α → α → α) (values : Array α) (g : NetworkGate) :
    Except Error (Array α) := do
  return values.push (← g.value op values)

/-- The values of the output gates, for given values of the eight inputs. -/
def network (op : GateKind → α → α → α) (bits : List α) : Except Error (List α) := do
  let values ← networkGates.foldlM (addValue op) bits.reverse.toArray
  outputGates.mapM fun (g, _) => g.value op values

theorem value_eq_ok {op : GateKind → α → α → α} {values : Array α} {g : NetworkGate} {v : α} :
    g.value op values = .ok v ↔ ∃ x y, entry values g.x = .ok x ∧ entry values g.y = .ok y ∧
      op g.kind x y = v := by
  unfold NetworkGate.value
  cases entry values g.x with
  | error e => simp [bind, Except.bind]
  | ok x =>
    cases entry values g.y with
    | error e => simp [bind, Except.bind]
    | ok y => simp [bind, Except.bind, pure, Except.pure]

theorem addValue_eq_ok {op : GateKind → α → α → α} {values values' : Array α} {g : NetworkGate} :
    addValue op values g = .ok values' ↔ ∃ v, g.value op values = .ok v ∧ values.push v = values' := by
  unfold addValue
  cases g.value op values with
  | error e => simp [bind, Except.bind]
  | ok v => simp [bind, Except.bind, pure, Except.pure]

/-! ### Runs that correspond -/

section Map

variable {op : GateKind → α → α → α} {op' : GateKind → β → β → β} (h : α → β)
  (hop : ∀ kind x y, h (op kind x y) = op' kind (h x) (h y))
include hop

theorem value_map {values : Array α} {g : NetworkGate} {v : α} (hv : g.value op values = .ok v) :
    g.value op' (values.map h) = .ok (h v) := by
  obtain ⟨x, y, hx, hy, rfl⟩ := value_eq_ok.mp hv
  rw [entry_eq_ok] at hx hy
  refine value_eq_ok.mpr ⟨h x, h y, entry_eq_ok.mpr ?_, entry_eq_ok.mpr ?_, (hop _ _ _).symm⟩
  · rw [Array.toList_map, List.getElem?_map, hx, Option.map_some]
  · rw [Array.toList_map, List.getElem?_map, hy, Option.map_some]

theorem foldlM_addValue_map : ∀ {gs : List NetworkGate} {values values' : Array α},
    gs.foldlM (addValue op) values = .ok values' →
    gs.foldlM (addValue op') (values.map h) = .ok (values'.map h)
  | [], values, _, hrun => by
    cases hrun
    rfl
  | g :: gs, values, values', hrun => by
    rw [List.foldlM_cons] at hrun
    obtain ⟨values₁, hadd, hrun⟩ := bind_eq_ok.mp hrun
    obtain ⟨v, hv, rfl⟩ := addValue_eq_ok.mp hadd
    rw [List.foldlM_cons, addValue_eq_ok.mpr ⟨h v, value_map h hop hv, Array.map_push.symm⟩]
    exact foldlM_addValue_map hrun

/-- A map that respects gates takes a run of the network to a run of the network. -/
theorem network_map [Inhabited α] {bits outs : List α} (hrun : network op bits = .ok outs) :
    network op' (bits.map h) = .ok (outs.map h) := by
  unfold network at hrun ⊢
  obtain ⟨values, hvalues, hrun⟩ := bind_eq_ok.mp hrun
  obtain ⟨v, hv, rfl⟩ := exists_of_mapM_eq_ok hrun
  refine bind_eq_ok.mpr ⟨values.map h, ?_, ?_⟩
  · rw [← List.map_reverse, ← List.map_toArray]
    exact foldlM_addValue_map h hop hvalues
  · rw [List.map_map]
    exact mapM_eq_ok fun p hp => value_map h hop (hv p hp)

end Map

/-! ### All bytes at once -/

/-- Bit `i` of each of 256 bytes. -/
def bitColumn (bytes : List UInt8) (i : Nat) : BitVec 256 :=
  (BitVec.ofBoolListLE (bytes.map fun b => b.toBitVec.getLsbD i)).setWidth 256

/-- Row `n` of the columns is made of the bits of byte `n`. -/
theorem map_getLsbD_bitColumn {bytes : List UInt8} {n : Nat} {b : UInt8} (hn : n < 256)
    (hb : bytes[n]? = some b) :
    ((List.range 8).map (bitColumn bytes)).map (fun column => column.getLsbD n) = byteBits b := by
  rw [List.map_map, byteBits]
  refine List.map_congr_left fun i _ => ?_
  simp [bitColumn, hn, BitVec.getLsbD_ofBoolListLE, List.getElem?_map, hb]

/-- The network on the columns of all bytes gives the columns of the substitution table. -/
theorem network_allBytes :
    network GateKind.evalAll ((List.range 8).map (bitColumn allBytes)) =
      .ok ((List.range 8).map (bitColumn substitutionTable.toList)).reverse := by
  apply ok_of_toOption
  decide +kernel

/-- The network on the bits of a byte gives those of its substitute, the top bit first. -/
theorem network_byteBits (b : UInt8) :
    network GateKind.eval (byteBits b) = .ok (byteBits (sBox b)).reverse := by
  have hlt : b.toNat < 256 := b.toNat_lt
  have hout := getElem?_substitutionTable b
  rw [substitute_eq_sBox] at hout
  have hrow := network_map (fun column : BitVec 256 => column.getLsbD b.toNat)
    (fun kind x y => kind.getLsbD_evalAll x y hlt) network_allBytes
  rwa [List.map_reverse, map_getLsbD_bitColumn hlt (getElem?_allBytes b),
    map_getLsbD_bitColumn hlt hout] at hrow

end Aes

namespace Build

open Aes Bytes

variable {c : Circuit} {input : Valuation} {D : Set Wire}

/-! ### The network in a circuit -/

theorem length_of_byte {a : Bundle} {x : UInt8} (h : c.Live input D a (byteBits x)) : a.length = 8 := by
  rw [h.toSignals.length_eq, length_byteBits]

/-- A signal that a gate reads carries its value. -/
theorem entry_yields {signals : Array Wire} {values : Array Bool} {i : Nat} {b : Bool}
    (hlive : c.Live input D signals.toList values.toList) (hb : entry values i = .ok b) :
    ∃ w, entry signals i = .ok w ∧ c.Carries input D w b := by
  obtain ⟨w, hw, hcarries⟩ := hlive.getElem? (entry_eq_ok.mp hb)
  exact ⟨w, entry_eq_ok.mpr hw, hcarries⟩

theorem addSignal_yields {signals : Array Wire} {values values' : Array Bool} {g : NetworkGate}
    (hc : c.WellFormed) (hD : ∀ w ∈ D, c.Allocated w) (hk : g.kind.isUnary = false)
    (hlive : c.Live input D signals.toList values.toList)
    (hadd : addValue GateKind.eval values g = .ok values') :
    (addSignal signals g).Yields c fun signals' c' =>
      c.Evolves ∅ c' ∧ c'.Live input D signals'.toList values'.toList := by
  obtain ⟨v, hv, rfl⟩ := addValue_eq_ok.mp hadd
  obtain ⟨a, b, ha, hb, rfl⟩ := value_eq_ok.mp hv
  obtain ⟨x, hx, hxa⟩ := entry_yields hlive ha
  obtain ⟨y, hy, hyb⟩ := entry_yields hlive hb
  refine .checked hx (.checked hy (.bind (gate_yields hc hD hk hxa hyb) ?_))
  rintro w c' ⟨hev, hw⟩
  refine .pure ⟨hev, ?_⟩
  rw [Array.toList_push, Array.toList_push]
  exact (hlive.evolves hc hev (Set.empty_subset D)).append (.cons hw .nil)

/-- The gates of a circuit follow the run on bits. -/
theorem foldlM_addSignal_yields : ∀ {gs : List NetworkGate} {signals : Array Wire}
    {values values' : Array Bool} {c : Circuit}, c.WellFormed → (∀ w ∈ D, c.Allocated w) →
    (∀ g ∈ gs, g.kind.isUnary = false) → c.Live input D signals.toList values.toList →
    gs.foldlM (addValue GateKind.eval) values = .ok values' →
    (gs.foldlM addSignal signals).Yields c fun signals' c' =>
      c.Evolves ∅ c' ∧ c'.Live input D signals'.toList values'.toList
  | [], signals, values, values', c, hc, _, _, hlive, hrun => by
    cases hrun
    exact .pure ⟨.refl hc ∅, hlive⟩
  | g :: gs, signals, values, values', c, hc, hD, hk, hlive, hrun => by
    obtain ⟨hg, hgs⟩ := List.forall_mem_cons.mp hk
    rw [List.foldlM_cons] at hrun
    obtain ⟨values₁, hadd, hrun⟩ := bind_eq_ok.mp hrun
    rw [List.foldlM_cons]
    refine .bind (addSignal_yields hc hD hg hlive hadd) ?_
    rintro signals₁ c₁ ⟨hev, hlive₁⟩
    refine (foldlM_addSignal_yields hev.wellFormed (hev.all_allocated hD) hgs hlive₁
      hrun).mono ?_
    rintro signals' c' ⟨hev', hlive'⟩
    exact ⟨hev.trans_same hev', hlive'⟩

theorem networkGates_binary : ∀ g ∈ networkGates, g.kind.isUnary = false := by
  decide

theorem outputGates_binary : ∀ p ∈ outputGates, p.1.kind.isUnary = false := by
  decide

/-- The output gates form the bits from the top down. -/
theorem map_outputGates {out : Bundle} (h : out.length = 8) :
    ∃ wire : NetworkGate × Nat → Wire, (∀ p ∈ outputGates, out.wireAt p.2 = .ok (wire p)) ∧
      outputGates.map wire = out.reverse := by
  have hbound : ∀ p ∈ outputGates, p.2 < 8 := by decide
  refine ⟨fun p => out.getD p.2 ⟨0⟩, fun p hp => ?_, ?_⟩
  · have hp : p.2 < out.length := h ▸ hbound p hp
    simp [wireAt_eq_ok, hp]
  · match out, h with
    | [_, _, _, _, _, _, _, _], _ => rfl

/-- **The network drives the substitute of a byte.** -/
theorem substituteByte_yields {a out : Bundle} {b : UInt8} (hc : c.WellFormed)
    (hD : ∀ w ∈ D, c.Allocated w) (ha : c.Live input D a (byteBits b)) (hout : c.Vacant D out)
    (hlen : out.length = 8) :
    (substituteByte a out).Yields c fun _ c' => c.Drives input out (byteBits (sBox b)) c' := by
  obtain ⟨values, hvalues, houts⟩ := bind_eq_ok.mp (network_byteBits b)
  obtain ⟨bit, hbit, hbits⟩ := exists_of_mapM_eq_ok houts
  obtain ⟨wire, hwire, hwires⟩ := map_outputGates hlen
  have hdistinct : requireDistinct [out] [a] = .ok () :=
    requireDistinct_eq_ok.mpr (by simpa using hout.not_mem_live ha)
  unfold substituteByte
  refine .checked (requireWidth_eq_ok.mpr (length_of_byte ha)) (.checked (requireWidth_eq_ok.mpr hlen) ?_)
  refine .checked hdistinct (.bind (foldlM_addSignal_yields hc hD networkGates_binary
    ha.reverse hvalues) ?_)
  rintro signals c₁ ⟨hev, hlive⟩
  have hvacant : c₁.Vacant D (outputGates.map wire) := hwires ▸ (hout.evolves hev).reverse
  refine (forM_drives_wires input bit hev.wellFormed hvacant ?_).mono ?_
  · rintro p hp c₂ hev₂
    obtain ⟨x, y, hx, hy, hvalue⟩ := value_eq_ok.mp (hbit p hp)
    have hlive₂ := hlive.evolves hev.wellFormed hev₂ subset_rfl
    obtain ⟨wx, hwx, hcx⟩ := entry_yields hlive₂ hx
    obtain ⟨wy, hwy, hcy⟩ := entry_yields hlive₂ hy
    refine .checked hwx (.checked hwy (.checked (hwire p hp) ?_))
    rw [← hvalue]
    exact gateTo_yields hev₂.wellFormed (outputGates_binary p hp) hcx hcy
      (hev₂.writable (hvacant.writable _ (List.mem_map_of_mem hp)))
  · intro u c' hdrive
    rw [hwires, ← hbits] at hdrive
    have hdrive := hdrive.reverse
    rw [List.reverse_reverse, List.reverse_reverse] at hdrive
    exact .after hev hdrive

end Build
end BitCircuit
