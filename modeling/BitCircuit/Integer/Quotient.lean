/-
# Division

Restoring long division: from the top bit of the dividend down, the divisor is subtracted on
trial from the remainder so far, and the difference is kept if it is not negative. Signed
division divides magnitudes; it truncates toward zero and the remainder has the sign of the
dividend. A divisor of zero is no error, since a circuit cannot branch on data.

Key definitions: `Build.trialStep`, `Build.divideUnsigned`, `Build.divide`.
-/
import BitCircuit.Integer.Sign

namespace BitCircuit
namespace Build

/-- The temporaries of a division: subtraction may need two, selection always needs one. -/
def divisionTemps : Objective → Build Bundle
  | .size => addTemps 2
  | .depth => addTemps 1

/-- One trial: shifts `bit` into the remainder, subtracts `divisor` with two bits to spare so
that the top one is the borrow, and returns the quotient bit and the next remainder. -/
def trialStep (divisor temps : Bundle) (obj : Objective) (remainder : Bundle) (bit : Wire) :
    Build (Wire × Bundle) := do
  let n := divisor.length
  let shifted : Bundle := bit :: remainder
  let diff ← newBundle (n + 2)
  subtract shifted divisor diff temps .unsigned obj
  let borrow ← diff.wireAt (n + 1)
  let quotientBit ← inv borrow
  let next ← newBundle n
  selectTo (← shifted.slice 0 n) (← diff.slice 0 n) [borrow] next temps
  return (quotientBit, next)

/-- The trials for the bits of a dividend, top bit first. Returns the quotient, whose bits
above these are `quotient`, and the remainder. -/
def trials (divisor temps : Bundle) (obj : Objective) :
    Bundle → (quotient remainder : Bundle) → Build (Bundle × Bundle)
  | [], quotient, remainder => return (quotient, remainder)
  | bit :: rest, quotient, remainder => do
    let (quotientBit, next) ← trialStep divisor temps obj remainder bit
    trials divisor temps obj rest (quotientBit :: quotient) next

/-- Drives `quot` and `rem` with the unsigned quotient and remainder, cut or zero-extended to
their widths. -/
def divideUnsigned (a b quot rem : Bundle) (obj : Objective) : Build Unit := do
  let temps ← divisionTemps obj
  let zero ← constant false
  let (quotient, remainder) ← trials b temps obj a.reverse [] (List.replicate b.length zero)
  copyBundle quotient quot .unsigned
  copyBundle remainder rem .unsigned

/-- Drives `quot` and `rem` with the quotient and remainder of `a` by `b`. -/
def divide (a b quot rem : Bundle) (enc : Encoding) (obj : Objective) : Build Unit := do
  requireNonempty [a, b, quot, rem]
  requireDistinct [quot, rem] [a, b]
  requireDistinct [quot] [rem]
  match enc with
  | .unsigned => divideUnsigned a b quot rem obj
  | .twosComplement =>
    let temps ← divisionTemps obj
    let ma ← newBundle a.length
    magnitude a ma temps obj
    let mb ← newBundle b.length
    magnitude b mb temps obj
    let mq ← newBundle a.length
    let mr ← newBundle b.length
    divideUnsigned ma mb mq mr obj
    let sign ← gate .xor (← a.msb) (← b.msb)
    applySign mq [sign] quot temps obj
    applySign mr [← a.msb] rem temps obj

end Build
end BitCircuit
