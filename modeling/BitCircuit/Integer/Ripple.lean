/-
# The ripple-carry adder

Adds column by column from the low end. Two temporaries are driven again and again: one
holds the carry into the next column, the other a partial sum. A subtraction adds the
complement of the second operand and a carry of one into the lowest column. Each column
costs one nonlinear gate; where one of its bits is known, half an adder does.

Key definitions: `AdderColumn`, `Circuit.knownBit`, `Build.rippleKnown`,
`Build.rippleFull`, `Build.ripple`.
-/
import BitCircuit.Integer.Basic
import BitCircuit.Integer.Sink

namespace BitCircuit

/-- One position of a sum: the bits to add, and where the result goes if it is wanted. -/
structure AdderColumn where
  x : Wire
  y : Wire
  target : Option Wire

/-- The columns of a sum, low end first. -/
def adderColumns (x y : Bundle) (targets : List (Option Wire)) :
    Except Error (List AdderColumn) := do
  return (← inStep (← inStep x y) targets).map fun ((x, y), t) => ⟨x, y, t⟩

/-- The operands of a column with the known one, if any, in second place, and its value.
Only an addition may exchange its operands. -/
def Circuit.knownBit (c : Circuit) (dir : Direction) (x y : Wire) : Wire × Wire × Option Bool :=
  match dir, c.constantValue? x, c.constantValue? y with
  | .addition, some v, none => (y, x, some v)
  | _, _, known => (x, y, known)

namespace Build

/-- Drives the wire a sum bit goes to, if it is wanted. -/
def driveTarget (kind : GateKind) (x y : Wire) : Option Wire → Build Unit
  | some out => gateTo kind x y out
  | none => return ()

/-- The lowest column; `more` says whether another column waits for its carry. -/
def rippleLowest (dir : Direction) (carry spare : Wire) (col : AdderColumn) (more : Bool) :
    Build Unit := do
  driveTarget .xor col.x col.y col.target
  if more then
    match dir with
    | .addition => gateTo .and col.x col.y carry
    | .subtraction =>
      invTo col.y spare
      gateTo .or col.x spare carry

/-- A column with a carry coming in that adds a known bit to `x`: half an adder. -/
def rippleKnown (bit : Bool) (carry x : Wire) (target : Option Wire) (more : Bool) : Build Unit := do
  driveTarget (if bit then .nxor else .xor) x carry target
  if more then
    gateTo (if bit then .or else .and) x carry carry

/-- A column with a carry coming in. -/
def rippleFull (dir : Direction) (carry spare x y : Wire) (target : Option Wire) (more : Bool) :
    Build Unit := do
  gateTo (if dir = .addition then .xor else .nxor) x y spare
  driveTarget .xor spare carry target
  if more then
    gateTo .xor x carry carry
    gateTo .and carry spare carry
    gateTo .xor carry x carry

/-- A column with a carry coming in, in the form its bits allow. -/
def rippleColumn (dir : Direction) (carry spare : Wire) (col : AdderColumn) (more : Bool) :
    Build Unit := do
  match (← get).knownBit dir col.x col.y with
  | (x, _, some v) => rippleKnown (v != (dir == .subtraction)) carry x col.target more
  | (x, y, none) => rippleFull dir carry spare x y col.target more

/-- The columns above the lowest one. -/
def rippleColumns (dir : Direction) (carry spare : Wire) : List AdderColumn → Build Unit
  | [] => return ()
  | col :: rest => do
    rippleColumn dir carry spare col !rest.isEmpty
    rippleColumns dir carry spare rest

/-- Adds or subtracts with a ripple-carry chain. The operands are brought to the width of
the sink; the first two temporaries are overwritten. -/
def ripple (a b : Bundle) (sink : Sink) (temps : Bundle) (enc : Encoding) (dir : Direction) :
    Build Unit := do
  requireTemps temps 2
  requireDistinct [temps] [a, b, sink.wires]
  let width ← sink.width
  let x ← extend enc width a
  let y ← extend enc width b
  let carry ← temps.wireAt 0
  let spare ← temps.wireAt 1
  match ← adderColumns x y sink.targets with
  | [] => throw .outOfRange
  | lowest :: rest =>
    rippleLowest dir carry spare lowest !rest.isEmpty
    rippleColumns dir carry spare rest

end Build
end BitCircuit
