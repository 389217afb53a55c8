/-
# Where the bits of a sum go

An adder either writes all bits of a sum to a bundle or computes a single one of them.

Key definitions: `Sink`, `Sink.width`, `Sink.targets`, `requireOperands`.
-/
import BitCircuit.Bundle

namespace BitCircuit

/-- Where the bits of a sum go. -/
inductive Sink where
  /-- Bit `i` goes to wire `i` of the bundle. -/
  | all (out : Bundle)
  /-- Only the bit at `position` is wanted, on the wire `out`. -/
  | bit (position : Nat) (out : Wire)

namespace Sink

/-- The wires that are written. -/
def wires : Sink → Bundle
  | .all out => out
  | .bit _ out => [out]

/-- The number of bits of the sum, up to the last one that is wanted. It has to be a size. -/
def width : Sink → Except Error Nat
  | .all out => .ok out.length
  | .bit position _ => if position + 1 < sizeLimit then .ok (position + 1) else .error .outOfRange

/-- For each bit of the sum the wire it goes to, if it is wanted. -/
def targets : Sink → List (Option Wire)
  | .all out => out.map some
  | .bit position out => List.replicate position none ++ [some out]

end Sink

/-- No operand of an adder is empty, something is written, and no operand is written to. -/
def requireOperands (a b : Bundle) (sink : Sink) : Except Error Unit := do
  requireNonempty [a, b]
  requireNonempty [sink.wires]
  requireDistinct [sink.wires] [a, b]

end BitCircuit
