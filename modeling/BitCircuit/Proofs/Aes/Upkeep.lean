/-
# What the operations of AES keep

The byte substitution, the mixing of columns and the whole cipher keep what the steps of
operations keep (`Upheld`), if the wires they are to write to are free.

Key theorems: `Build.keeps_substituteByte`, `Build.keeps_mixColumns`, `Build.keeps_encrypt`.
-/
import BitCircuit.Aes.Cipher
import BitCircuit.Proofs.Upkeep

namespace BitCircuit
namespace Build

open Aes

variable {I : Circuit → Prop} {free : Set Wire} (hI : Upheld I free)
include hI

theorem keeps_addSignal (signals : Array Wire) (g : NetworkGate) :
    Keeps I (addSignal signals g) fun _ => True := by
  unfold addSignal
  refine .after .checked fun x => .after .checked fun y => ?_
  exact .after (keeps_gate hI) fun w => .pure trivial

theorem keeps_substituteByte {a out : Bundle} (hout : ∀ w ∈ out, w ∈ free) :
    Keeps I (substituteByte a out) fun _ => True := by
  unfold substituteByte
  refine .after .checked fun _ => .after .checked fun _ => .after .checked fun _ => ?_
  refine .after (Q := fun _ => True) (.foldlM trivial fun g _ signals _ => keeps_addSignal hI signals g)
    fun signals => .forM fun p _ => ?_
  refine .after .checked fun x => .after .checked fun y => ?_
  refine .bind (.check fun _ h => hout _ (mem_of_wireAt h)) fun o ho => ?_
  exact keeps_gateTo hI ho

theorem keeps_xorBundles (a b : Bundle) : Keeps I (xorBundles a b) fun _ => True := by
  unfold xorBundles
  exact .after .checked fun l => (Keeps.mapM (R := fun _ => True) fun _ _ => keeps_gate hI).any

theorem keeps_doubleByte (b : Bundle) : Keeps I (doubleByte b) fun _ => True := by
  unfold doubleByte
  split
  · refine .after (keeps_gate hI) fun d1 => .after (keeps_gate hI) fun d3 => ?_
    exact .after (keeps_gate hI) fun d4 => .pure trivial
  · exact .throw

theorem keeps_mixByte {a pair parity out : Bundle} (hout : ∀ w ∈ out, w ∈ free) :
    Keeps I (mixByte a pair parity out) fun _ => True := by
  unfold mixByte
  refine .after (keeps_doubleByte hI pair) fun doubled => .after .checked fun ap => ?_
  refine .after .checked fun apd => .bind (.check fun _ h => mem_of_inStep h) fun l hl => ?_
  refine .forM fun p hp => .after (keeps_gate hI) fun s => ?_
  exact keeps_gateTo hI (hout _ (hl p hp).2)

theorem keeps_mixColumn {state out : Bundle} {column : Nat} (hout : ∀ w ∈ out, w ∈ free) :
    Keeps I (mixColumn state out column) fun _ => True := by
  unfold mixColumn
  refine .after .checked fun a0 => .after .checked fun a1 => ?_
  refine .after .checked fun a2 => .after .checked fun a3 => ?_
  refine .after (keeps_xorBundles hI _ _) fun u0 => .after (keeps_xorBundles hI _ _) fun u1 => ?_
  refine .after (keeps_xorBundles hI _ _) fun u2 => .after (keeps_xorBundles hI _ _) fun u3 => ?_
  refine .after (keeps_xorBundles hI _ _) fun parity => ?_
  have hbyte : ∀ {j : Nat} {o : Bundle}, byteAt out j = .ok o → ∀ w ∈ o, w ∈ free := fun h w hw =>
    hout w (mem_of_slice h w hw)
  refine .bind (.check fun _ => hbyte) fun o0 h0 => .after (keeps_mixByte hI h0) fun _ => ?_
  refine .bind (.check fun _ => hbyte) fun o1 h1 => .after (keeps_mixByte hI h1) fun _ => ?_
  refine .bind (.check fun _ => hbyte) fun o2 h2 => .after (keeps_mixByte hI h2) fun _ => ?_
  exact .bind (.check fun _ => hbyte) fun o3 h3 => keeps_mixByte hI h3

theorem keeps_mixColumns {state out : Bundle} (hout : ∀ w ∈ out, w ∈ free) :
    Keeps I (mixColumns state out) fun _ => True := by
  unfold mixColumns
  refine .after .checked fun _ => .after .checked fun _ => .after .checked fun _ => ?_
  exact .forM fun column _ => keeps_mixColumn hI hout

theorem keeps_substituteAndShift (state : Bundle) :
    Keeps I (substituteAndShift state) fun _ => True := by
  unfold substituteAndShift
  refine .bind (keeps_newBundle hI 128) fun substituted hsubstituted => ?_
  refine .after (.forM fun j _ => ?_) fun _ => .checked
  refine .after .checked fun a => ?_
  refine .bind (.check fun _ h w hw => hsubstituted w (mem_of_slice h w hw)) fun out hout => ?_
  exact keeps_substituteByte hI hout

theorem keeps_innerRound (expandedKey state : Bundle) (r : Nat) :
    Keeps I (innerRound expandedKey state r) fun _ => True := by
  unfold innerRound
  refine .after (keeps_substituteAndShift hI state) fun shifted => ?_
  refine .bind (keeps_newBundle hI 128) fun mixed hmixed => ?_
  refine .after (keeps_mixColumns hI hmixed) fun _ => .after .checked fun key => ?_
  exact keeps_xorBundles hI mixed key

theorem keeps_encrypt {message expandedKey ciphertext : Bundle}
    (hout : ∀ w ∈ ciphertext, w ∈ free) :
    Keeps I (encrypt message expandedKey ciphertext) fun _ => True := by
  unfold encrypt
  refine .after .checked fun _ => .after .checked fun _ => .after .checked fun _ => ?_
  refine .after .checked fun _ => .after .checked fun key => ?_
  refine .after (keeps_xorBundles hI message key) fun start => ?_
  refine .after (Q := fun _ => True) (.foldlM trivial fun r _ state _ => keeps_innerRound hI _ _ _) fun state => ?_
  refine .after (keeps_substituteAndShift hI state) fun shifted => .after .checked fun key => ?_
  refine .after .checked fun sk => .bind (.check fun _ h => mem_of_inStep h) fun l hl => .forM fun p hp => ?_
  exact keeps_gateTo hI (hout _ (hl p hp).2)

end Build
end BitCircuit
