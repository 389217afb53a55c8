/-
# Multiplication

Shift and add: each bit of the second operand selects the first one or zero, shifted into
place. A small multiplier sums these terms one after the other, a shallow one in a balanced
tree. Signed operands are multiplied as magnitudes and the sign is put back at the end.

Key definitions: `ShiftedSum`, `Build.partialProducts`, `Build.accumulate`, `Build.multiply`.
-/
import BitCircuit.Integer.Sign

namespace BitCircuit

/-- A partial sum with the value of `bits` shifted up by `shift`. -/
structure ShiftedSum where
  shift : Nat
  bits : Bundle

namespace Build

/-- One term for each bit of `b` below `width`: `a` or zero, cut off at `width`. -/
def partialProducts (a b : Bundle) (width : Nat) : Build (List ShiftedSum) :=
  (b.take width).zipIdx.mapM fun (bit, shift) => do
    let shifted ← a.slice 0 (min a.length (← difference width shift))
    let zero ← constantBundle 0 shifted.length
    return ⟨shift, ← select shifted zero bit⟩

/-- Adds two terms, the first shifted no further than the second. Its bits below the second
pass through, and the sum is cut off at `width`. -/
def accumulate (width : Nat) (temps : Bundle) (obj : Objective) (lo hi : ShiftedSum) :
    Build ShiftedSum := do
  let gap ← difference hi.shift lo.shift
  let low ← extend .unsigned gap lo.bits
  let sum ← newBundle (← difference width hi.shift)
  if !sum.isEmpty then
    let upper ←
      if lo.bits.length > gap then lo.bits.slice gap lo.bits.length else constantBundle 0 1
    add upper hi.bits sum temps .unsigned obj
  return ⟨lo.shift, low ++ sum⟩

/-- Drives `out` with the unsigned product, cut to its width. -/
def multiplyUnsigned (a b out : Bundle) (obj : Objective) : Build Unit := do
  let width := out.length
  let temps ← adderTemps obj
  let terms ← partialProducts a b width
  let total ←
    match obj, terms with
    | _, [] => throw (.widthMismatch 0 1)
    | .size, first :: rest => rest.foldlM (accumulate width temps obj) first
    | .depth, terms => reduce (fun _ => accumulate width temps obj) terms
  copyBundle total.bits out .unsigned

/-- Drives `out` with `a * b`, cut to its width. -/
def multiply (a b out : Bundle) (obj : Objective) (enc : Encoding) : Build Unit := do
  requireNonempty [a, b, out]
  requireDistinct [out] [a, b]
  match enc with
  | .unsigned => multiplyUnsigned a b out obj
  | .twosComplement =>
    let temps ← addTemps 2
    let ma ← newBundle a.length
    magnitude a ma temps obj
    let mb ← newBundle b.length
    magnitude b mb temps obj
    let product ← newBundle out.length
    multiplyUnsigned ma mb product obj
    let sign ← gate .xor (← a.msb) (← b.msb)
    applySign product [sign] out temps obj

end Build
end BitCircuit
