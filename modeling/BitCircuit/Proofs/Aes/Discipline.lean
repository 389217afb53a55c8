/-
# The operations of AES drive each wire once

The cipher needs no temporaries. The bytes of a state are substituted and its columns mixed one after the
other, each to wires of its own, so every wire of a state is driven once; so are the wires of the ciphertext,
and no gate reads them.

Key theorems: `Build.leads_substituteByte`, `Build.leads_mixColumns`, `Build.leads_encrypt`.
-/
import BitCircuit.Aes.Cipher
import BitCircuit.Proofs.Discipline
import BitCircuit.Proofs.Aes.Rounds

namespace BitCircuit
namespace Build

open Aes Circuit

variable {outs pending : Bundle} {ts : List Bundle} {a b out state : Bundle}

/-! ### Substitution -/

theorem mem_of_entry {signals : Array Wire} {i : Nat} {w : Wire} (h : entry signals i = .ok w) :
    w ∈ signals.toList :=
  List.mem_of_getElem? (entry_eq_ok.mp h)

theorem leads_addSignal {signals : Array Wire} {g : NetworkGate} (h : ∀ w ∈ signals.toList, w ∉ outs) :
    Leads (Tidy outs ts pending) (addSignal signals g) (fun signals' => ∀ w ∈ signals'.toList, w ∉ outs)
      (Tidy outs ts pending) := by
  apply Leads.checked
  intro x hx
  apply Leads.checked
  intro y hy
  apply (leads_gate (h x (mem_of_entry hx)) (h y (mem_of_entry hy))).bind
  intro w hw
  apply Leads.pure
  intro w' hw'
  rw [Array.toList_push] at hw'
  rcases List.mem_append.mp hw' with hw' | hw'
  · exact h w' hw'
  · exact List.mem_singleton.mp hw' ▸ hw

/-- The output gates drive the bits of the result from the top down. -/
theorem leads_substituteByte (ha : ∀ w ∈ a, w ∉ outs) :
    Leads (Tidy outs ts (out ++ pending)) (substituteByte a out) (fun _ => True)
      (Tidy outs ts pending) := by
  apply Leads.checked
  intro _ _
  apply Leads.checked
  intro _ hlen
  apply Leads.checked
  intro _ _
  have hnetwork : Leads (Tidy outs ts (out ++ pending)) (networkGates.foldlM addSignal a.reverse.toArray)
      (fun signals => ∀ w ∈ signals.toList, w ∉ outs) (Tidy outs ts (out ++ pending)) := by
    apply Leads.foldlM
    · intro w hw
      exact ha w (List.mem_reverse.mp hw)
    · intro g _ signals hsignals
      exact leads_addSignal hsignals
  apply hnetwork.bind
  intro signals hsignals
  obtain ⟨wire, hwire, hwires⟩ := map_outputGates (requireWidth_eq_ok.mp hlen)
  have hperm : (out ++ pending).Perm (outputGates.flatMap (fun p => [wire p]) ++ pending) := by
    rw [← List.map_eq_flatMap, hwires]
    exact (List.reverse_perm out).symm.append_right pending
  apply Leads.perm hperm
  apply Leads.forM_flatMap
  intro p hp rest
  apply Leads.checked
  intro x hx
  apply Leads.checked
  intro y hy
  apply Leads.checked
  intro o ho
  obtain rfl : wire p = o := Except.ok.inj ((hwire p hp).symm.trans ho)
  exact leads_gateTo (hsignals x (mem_of_entry hx)) (hsignals y (mem_of_entry hy)) .first

/-! ### Mixed columns -/

theorem leads_xorBundles (ha : ∀ w ∈ a, w ∉ outs) (hb : ∀ w ∈ b, w ∉ outs) :
    Leads (Tidy outs ts pending) (xorBundles a b) (fun ws => ∀ w ∈ ws, w ∉ outs)
      (Tidy outs ts pending) := by
  apply Leads.checked
  intro l hl
  apply Leads.mapM
  intro p hp
  obtain ⟨hpa, hpb⟩ := mem_of_inStep hl p hp
  exact leads_gate (ha _ hpa) (hb _ hpb)

theorem leads_doubleByte (ha : ∀ w ∈ a, w ∉ outs) :
    Leads (Tidy outs ts pending) (doubleByte a) (fun ws => ∀ w ∈ ws, w ∉ outs)
      (Tidy outs ts pending) := by
  unfold doubleByte
  split
  · simp only [List.forall_mem_cons] at ha
    obtain ⟨h0, h1, h2, h3, h4, h5, h6, h7, -⟩ := ha
    apply (leads_gate h0 h7).bind
    intro d1 hd1
    apply (leads_gate h2 h7).bind
    intro d3 hd3
    apply (leads_gate h3 h7).bind
    intro d4 hd4
    apply Leads.pure
    simp only [List.forall_mem_cons]
    exact ⟨h7, hd1, h1, hd3, hd4, h4, h5, h6, by simp⟩
  · exact .throw

theorem leads_mixByte {pair parity : Bundle} (ha : ∀ w ∈ a, w ∉ outs) (hpair : ∀ w ∈ pair, w ∉ outs)
    (hparity : ∀ w ∈ parity, w ∉ outs) :
    Leads (Tidy outs ts (out ++ pending)) (mixByte a pair parity out) (fun _ => True)
      (Tidy outs ts pending) := by
  apply (leads_doubleByte hpair).bind
  intro doubled hdoubled
  apply Leads.checked
  intro ap hap
  apply Leads.checked
  intro apd hapd
  apply Leads.forM_inStep
  intro p hp o rest
  obtain ⟨hpap, hpd⟩ := mem_of_inStep hapd p hp
  obtain ⟨hpa, hpp⟩ := mem_of_inStep hap p.1 hpap
  apply (leads_gate (ha _ hpa) (hparity _ hpp)).bind
  intro s hs
  exact leads_gateTo hs (hdoubled _ hpd) .first

theorem not_mem_of_byteAt {byte : Bundle} {j : Nat} (hstate : ∀ w ∈ state, w ∉ outs)
    (h : byteAt state j = .ok byte) : ∀ w ∈ byte, w ∉ outs :=
  fun w hw => hstate w (mem_of_slice h w hw)

theorem eq_block_of_byteAt {byte : Bundle} {j : Nat} (h : byteAt state j = .ok byte) :
    byte = block state j :=
  (slice_eq_ok.mp h).2.symm

theorem leads_mixColumn {column : Nat} (hstate : ∀ w ∈ state, w ∉ outs) :
    Leads (Tidy outs ts (columnOf (block out) column ++ pending)) (mixColumn state out column)
      (fun _ => True) (Tidy outs ts pending) := by
  apply Leads.checked
  intro a0 h0
  apply Leads.checked
  intro a1 h1
  apply Leads.checked
  intro a2 h2
  apply Leads.checked
  intro a3 h3
  have h0 := not_mem_of_byteAt hstate h0
  have h1 := not_mem_of_byteAt hstate h1
  have h2 := not_mem_of_byteAt hstate h2
  have h3 := not_mem_of_byteAt hstate h3
  apply (leads_xorBundles h0 h1).bind
  intro u0 hu0
  apply (leads_xorBundles h1 h2).bind
  intro u1 hu1
  apply (leads_xorBundles h2 h3).bind
  intro u2 hu2
  apply (leads_xorBundles h3 h0).bind
  intro u3 hu3
  apply (leads_xorBundles hu0 hu2).bind
  intro parity hparity
  -- the bytes of the column are driven in their order
  unfold columnOf
  simp only [List.append_assoc]
  apply Leads.checked
  intro o0 ho0
  rw [← eq_block_of_byteAt ho0]
  apply (leads_mixByte h0 hu0 hparity).after
  intro _
  apply Leads.checked
  intro o1 ho1
  rw [← eq_block_of_byteAt ho1]
  apply (leads_mixByte h1 hu1 hparity).after
  intro _
  apply Leads.checked
  intro o2 ho2
  rw [← eq_block_of_byteAt ho2]
  apply (leads_mixByte h2 hu2 hparity).after
  intro _
  apply Leads.checked
  intro o3 ho3
  rw [← eq_block_of_byteAt ho3]
  exact leads_mixByte h3 hu3 hparity

theorem leads_mixColumns (hstate : ∀ w ∈ state, w ∉ outs) :
    Leads (Tidy outs ts (out ++ pending)) (mixColumns state out) (fun _ => True)
      (Tidy outs ts pending) := by
  apply Leads.checked
  intro _ _
  apply Leads.checked
  intro _ hlen
  apply Leads.checked
  intro _ _
  have hcolumns : Leads (Tidy outs ts ((List.range 4).flatMap (columnOf (block out)) ++ pending))
      ((List.range 4).forM (mixColumn state out)) (fun _ => True) (Tidy outs ts pending) :=
    .forM_flatMap fun column _ rest => leads_mixColumn hstate
  rwa [flatMap_columnOf, flatMap_block (n := 16) (requireWidth_eq_ok.mp hlen)] at hcolumns

/-! ### Rounds -/

theorem not_mem_of_shiftRows {shifted : Bundle} (hlen : state.length = 128)
    (hstate : ∀ w ∈ state, w ∉ outs) (h : shiftRows state = .ok shifted) : ∀ w ∈ shifted, w ∉ outs := by
  rw [shiftRows_eq_ok hlen] at h
  cases h
  intro w hw
  obtain ⟨j, -, hw⟩ := List.mem_flatMap.mp hw
  exact hstate w (mem_of_mem_block hw)

theorem leads_substituteAndShift (hstate : ∀ w ∈ state, w ∉ outs) :
    Leads (Tidy outs ts pending) (substituteAndShift state) (fun ws => ∀ w ∈ ws, w ∉ outs)
      (Tidy outs ts pending) := by
  apply Leads.newBundle
  intro substituted hlen hsubstituted
  have hbytes : Leads (Tidy outs ts ((List.range 16).flatMap (block substituted) ++ pending))
      ((List.range 16).forM fun j => do
        substituteByte (← byteAt state j) (← byteAt substituted j)) (fun _ => True)
      (Tidy outs ts pending) := by
    apply Leads.forM_flatMap
    intro j _ rest
    apply Leads.checked
    intro byte hbyte
    apply Leads.checked
    intro o ho
    rw [← eq_block_of_byteAt ho]
    exact leads_substituteByte (not_mem_of_byteAt hstate hbyte)
  rw [flatMap_block (n := 16) hlen] at hbytes
  apply hbytes.after
  intro _
  exact .check fun shifted hshifted => not_mem_of_shiftRows hlen hsubstituted hshifted

theorem leads_innerRound {expandedKey : Bundle} {r : Nat} (hkey : ∀ w ∈ expandedKey, w ∉ outs)
    (hstate : ∀ w ∈ state, w ∉ outs) :
    Leads (Tidy outs ts pending) (innerRound expandedKey state r) (fun ws => ∀ w ∈ ws, w ∉ outs)
      (Tidy outs ts pending) := by
  apply (leads_substituteAndShift hstate).bind
  intro shifted hshifted
  apply Leads.newBundle
  intro mixed _ hmixed
  apply (leads_mixColumns hshifted).after
  intro _
  apply Leads.checked
  intro key hround
  exact leads_xorBundles hmixed fun w hw => hkey w (mem_of_slice hround w hw)

theorem leads_encrypt {message expandedKey ciphertext : Bundle} (hmessage : ∀ w ∈ message, w ∉ outs)
    (hkey : ∀ w ∈ expandedKey, w ∉ outs) :
    Leads (Tidy outs ts (ciphertext ++ pending)) (encrypt message expandedKey ciphertext) (fun _ => True)
      (Tidy outs ts pending) := by
  apply Leads.checked
  intro _ _
  apply Leads.checked
  intro _ _
  apply Leads.checked
  intro _ _
  apply Leads.checked
  intro _ _
  apply Leads.checked
  intro first hfirst
  apply (leads_xorBundles hmessage fun w hw => hkey w (mem_of_slice hfirst w hw)).bind
  intro start hstart
  apply (Leads.foldlM hstart fun r _ state hstate => leads_innerRound hkey hstate).bind
  intro state hstate
  apply (leads_substituteAndShift hstate).bind
  intro shifted hshifted
  apply Leads.checked
  intro last hlast
  apply Leads.checked
  intro sk hsk
  apply Leads.forM_inStep
  intro p hp o rest
  obtain ⟨hps, hpk⟩ := mem_of_inStep hsk p hp
  exact leads_gateTo (hshifted _ hps) (hkey _ (mem_of_slice hlast _ hpk)) .first

end Build
end BitCircuit
