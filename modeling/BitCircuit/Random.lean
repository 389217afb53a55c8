/-
# A stepping source of test data

`Stepper` hands out its state and then adds a fixed increment, wrapping at 64 bits. It is
predictable on purpose: the same start gives the same draws. A draw of 32 bits takes the
low half of one step; wider draws take as many steps as they need, low part first. A draw of
more bytes than a list can hold is refused.

Key definitions: `Stepper`, `Draw`, `Draw.word`, `Draw.bytes`.
-/
import BitCircuit.Word

namespace BitCircuit

/-- The state of the source and what each step adds to it. -/
structure Stepper where
  state : UInt64
  increment : UInt64

/-- An action that takes values from the source. -/
abbrev Draw := ExceptT Error (StateM Stepper)

namespace Draw

/-- Runs a draw: its result, or why it was refused, and the source after it. -/
def exec {α : Type} (draw : Draw α) (s : Stepper) : Except Error α × Stepper :=
  draw.run s

/-- One step: the state before the increment is added. -/
def next : Draw UInt64 :=
  modifyGet fun s => (s.state, { s with state := s.state + s.increment })

/-- The low half of one step. -/
def half : Draw UInt32 := do
  return (← next).toUInt32

/-- The top bit of a half. -/
def bool : Draw Bool := do
  return (← half).toBitVec.msb

/-- Two steps, the first giving the low half of the word. -/
def word : Draw Word := do
  let low ← next
  let high ← next
  return high.toBitVec ++ low.toBitVec

/-- A word with only its low `n` bits kept. -/
def bits (n : Nat) : Draw Word := do
  return (← word).lowBits n

/-- `n` bytes, each the lowest of a half. -/
def bytes (n : Nat) : Draw (List UInt8) := do
  requireBelow byteLimit n
  (List.range n).mapM fun _ => do return (← half).toUInt8

end Draw
end BitCircuit
