/-
# Bit by bit

Operations that treat each position on its own: complement, the two-operand bitwise
operations, selection between two bundles, and plain copies.

Key definitions: `Build.complement`, `Build.bitwise`, `Build.selectTo`, `Build.select`,
`Build.copyBundle`.
-/
import BitCircuit.Integer.Basic

namespace BitCircuit
namespace Build

/-- Drives `out` with the complement of `a`, sign-extended or cut to its width. -/
def complement (a out : Bundle) : Build Unit := do
  requireNonempty [a]
  requireDistinct [out] [a]
  let x ← extend .twosComplement out.length a
  (← inStep x out).forM fun (x, o) => invTo x o

/-- Drives `out` with `kind` of `a` and `b` at each position, both brought to its width. -/
def bitwise (kind : GateKind) (a b out : Bundle) (enc : Encoding) : Build Unit := do
  requireNonempty [a, b]
  requireDistinct [out] [a, b]
  let x ← extend enc out.length a
  let y ← extend enc out.length b
  (← inStep (← inStep x y) out).forM fun ((x, y), o) => gateTo kind x y o

/-- Drives `out` with `ifTrue` or `ifFalse` as the single wire of `choice` says, with one
nonlinear gate for each position. Needs one temporary. -/
def selectTo (ifTrue ifFalse choice out temps : Bundle) : Build Unit := do
  requireWidth choice 1
  requireWidth ifFalse ifTrue.length
  requireWidth out ifTrue.length
  requireTemps temps 1
  requireDistinct [out] [ifTrue, ifFalse, choice]
  requireDistinct [temps] [ifTrue, ifFalse, choice, out]
  let spare ← temps.wireAt 0
  let chosen ← choice.wireAt 0
  (← inStep (← inStep ifTrue ifFalse) out).forM fun ((t, f), o) => do
    gateTo .xor t f spare
    gateTo .and spare chosen spare
    gateTo .xor spare f o

/-- The same selection on fresh wires. Constants fold away: to choose between a bundle and
zero costs one gate for each position. -/
def select (ifTrue ifFalse : Bundle) (choice : Wire) : Build Bundle := do
  requireWidth ifFalse ifTrue.length
  (ifTrue.zip ifFalse).mapM fun (t, f) => do
    let d ← gate .xor t f
    let d ← gate .and d choice
    gate .xor d f

/-- Copies `source` to `out`, brought to its width. -/
def copyBundle (source out : Bundle) (enc : Encoding) : Build Unit := do
  let x ← extend enc out.length source
  (← inStep x out).forM fun (x, o) => copyTo x o

end Build
end BitCircuit
