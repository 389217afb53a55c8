/-
# Equality and order

Two bundles are equal if no position differs. One is less than the other if their
difference, taken one bit wider than the wider of them, is negative.

Key definitions: `Build.isZero`, `Build.equal`, `Build.notEqual`, `Build.lessThan`,
`Build.atLeast`.
-/
import BitCircuit.Integer.Adder

namespace BitCircuit
namespace Build

/-- Drives `out` with whether `a` is zero. -/
def isZero (a out : Bundle) : Build Unit := do
  requireWidth out 1
  requireDistinct [out] [a]
  let any ← orAll a
  invTo any (← out.wireAt 0)

/-- A wire that says whether two bundles of one width differ. -/
def differ (a b out : Bundle) : Build Wire := do
  requireWidth out 1
  requireWidth b a.length
  requireDistinct [out] [a, b]
  orAll (← (a.zip b).mapM fun (x, y) => gate .xor x y)

/-- Drives `out` with whether `a` and `b` are equal. -/
def equal (a b out : Bundle) : Build Unit := do
  let any ← differ a b out
  invTo any (← out.wireAt 0)

/-- Drives `out` with whether `a` and `b` differ. -/
def notEqual (a b out : Bundle) : Build Unit := do
  let any ← differ a b out
  copyTo any (← out.wireAt 0)

/-- Drives `out` with whether `a` is less than `b`. -/
def lessThan (a b out : Bundle) (enc : Encoding) (obj : Objective) : Build Unit := do
  requireWidth out 1
  requireNonempty [a, b]
  let temps ← adderTemps obj
  sumBit a b out temps (max a.length b.length) enc .subtraction obj

/-- Drives `out` with whether `a` is at least `b`. -/
def atLeast (a b out : Bundle) (enc : Encoding) (obj : Objective) : Build Unit := do
  requireWidth out 1
  let less ← newBundle 1
  lessThan a b less enc obj
  invTo (← less.wireAt 0) (← out.wireAt 0)

end Build
end BitCircuit
