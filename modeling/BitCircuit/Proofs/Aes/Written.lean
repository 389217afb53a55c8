/-
# The operations of AES write to their results

The byte substitution, the mixing of columns and the whole cipher write to each wire of their results
(`Build.Writes`), unless they are refused.

Key theorems: `Build.writes_substituteByte`, `Build.writes_mixColumns`, `Build.writes_encrypt`.
-/
import BitCircuit.Proofs.Written
import BitCircuit.Proofs.Aes.Discipline
import BitCircuit.Proofs.Aes.Upkeep

namespace BitCircuit
namespace Build

open Aes

variable {w : Wire}

/-- The output gates drive all eight bits. -/
theorem writes_substituteByte {a out : Bundle} (hw : w ∈ out) : Writes (substituteByte a out) w := by
  unfold substituteByte
  refine .after fun _ => .checked fun _ hlen => .after fun _ => .after fun signals => ?_
  obtain ⟨wire, hwire, hwires⟩ := map_outputGates (requireWidth_eq_ok.mp hlen)
  have hmem : w ∈ outputGates.map wire := by
    rw [hwires]
    exact List.mem_reverse.mpr hw
  obtain ⟨p, hp, rfl⟩ := List.mem_map.mp hmem
  refine .forM (p := p) ?_ (fun q => ?_) hp
  · refine .after fun x => .after fun y => .checked fun o ho => ?_
    obtain rfl : wire p = o := Except.ok.inj ((hwire p hp).symm.trans ho)
    exact writes_gateTo p.1.kind x y (wire p)
  · refine .after .checked fun x => .after .checked fun y => .after .checked fun o => ?_
    exact keepsWritable_gateTo

theorem writes_mixByte {a pair parity out : Bundle} (hw : w ∈ out) :
    Writes (mixByte a pair parity out) w := by
  unfold mixByte
  refine .after fun doubled => .after fun ap => .after fun apd => ?_
  refine .forM_inStep hw (fun p => .after fun s => writes_gateTo .xor s p.2 w) fun p => ?_
  exact .after (keeps_gate (Circuit.upheld_writable w)) fun s => keepsWritable_gateTo

theorem writes_mixColumn {state out : Bundle} {column : Nat} (hw : w ∈ columnOf (block out) column) :
    Writes (mixColumn state out column) w := by
  have hbyte : ∀ {a pair parity o : Bundle},
      Keeps (fun c => c.Writable w) (mixByte a pair parity o) fun _ => True :=
    keeps_mixByte (Circuit.upheld_writable w) fun _ _ => Set.mem_univ _
  unfold mixColumn
  refine .after fun a0 => .after fun a1 => .after fun a2 => .after fun a3 => ?_
  refine .after fun u0 => .after fun u1 => .after fun u2 => .after fun u3 => .after fun parity => ?_
  -- the bytes of the column are driven in their order, and `w` lies in one of them
  simp only [columnOf, List.mem_append, or_assoc] at hw
  refine .checked fun o0 h0 => ?_
  rw [← eq_block_of_byteAt h0] at hw
  rcases hw with hw | hw
  · refine .kept (writes_mixByte hw) fun _ => .after .checked fun o1 => .after hbyte fun _ => ?_
    exact .after .checked fun o2 => .after hbyte fun _ => .after .checked fun o3 => hbyte
  refine .after fun _ => .checked fun o1 h1 => ?_
  rw [← eq_block_of_byteAt h1] at hw
  rcases hw with hw | hw
  · refine .kept (writes_mixByte hw) fun _ => .after .checked fun o2 => .after hbyte fun _ => ?_
    exact .after .checked fun o3 => hbyte
  refine .after fun _ => .checked fun o2 h2 => ?_
  rw [← eq_block_of_byteAt h2] at hw
  rcases hw with hw | hw
  · exact .kept (writes_mixByte hw) fun _ => .after .checked fun o3 => hbyte
  refine .after fun _ => .checked fun o3 h3 => ?_
  rw [← eq_block_of_byteAt h3] at hw
  exact writes_mixByte hw

theorem writes_mixColumns {state out : Bundle} (hw : w ∈ out) : Writes (mixColumns state out) w := by
  have hI := Circuit.upheld_writable w
  unfold mixColumns
  refine .after fun _ => .checked fun _ hlen => .after fun _ => ?_
  rw [← flatMap_block (n := 16) (requireWidth_eq_ok.mp hlen), ← flatMap_columnOf] at hw
  obtain ⟨column, hcolumn, hw⟩ := List.mem_flatMap.mp hw
  exact .forM (writes_mixColumn hw) (fun _ => keeps_mixColumn hI fun _ _ => Set.mem_univ _) hcolumn

theorem writes_encrypt {message expandedKey ciphertext : Bundle} (hw : w ∈ ciphertext) :
    Writes (encrypt message expandedKey ciphertext) w := by
  unfold encrypt
  refine .after fun _ => .after fun _ => .after fun _ => .after fun _ => .after fun key => ?_
  refine .after fun start => .after fun state => .after fun shifted => .after fun key => .after fun sk => ?_
  exact .forM_inStep hw (fun p => writes_gateTo .xor p.1 p.2 w) fun p => keepsWritable_gateTo

end Build
end BitCircuit
