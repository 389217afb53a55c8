/-
# Sign and magnitude

Negation in two's complement, and the way from a signed value to its magnitude and back.

Key definitions: `Build.negate`, `Build.magnitude`, `Build.applySign`.
-/
import BitCircuit.Integer.Adder
import BitCircuit.Integer.Logic

namespace BitCircuit
namespace Build

/-- Drives `out` with `-a`, as the complement of `a` plus one. -/
def negate (a out temps : Bundle) (obj : Objective) : Build Unit := do
  requireNonempty [a, out]
  let x ← extend .twosComplement out.length a
  let inverted ← x.mapM inv
  let one ← constant true
  add inverted [one] out temps .unsigned obj

/-- Drives `out` with the absolute value of `a`, zero-extended. The most negative value is
its own negation, which is right when it is read as unsigned. -/
def magnitude (a out temps : Bundle) (obj : Objective) : Build Unit := do
  requireNonempty [a, out]
  requireDistinct [out] [a, temps]
  let sign ← a.msb
  let negated ← newBundle a.length
  negate a negated temps obj
  if out.length = a.length then
    selectTo negated a [sign] out temps
  else
    let absolute ← newBundle a.length
    selectTo negated a [sign] absolute temps
    copyBundle absolute out .unsigned

/-- Drives `out` with the unsigned `a`, or with `-a` if the single wire of `sign` is set. -/
def applySign (a sign out temps : Bundle) (obj : Objective) : Build Unit := do
  requireWidth sign 1
  requireNonempty [a, out]
  let absolute ← extend .unsigned out.length a
  let negated ← newBundle out.length
  negate absolute negated temps obj
  selectTo negated absolute sign out temps

end Build
end BitCircuit
