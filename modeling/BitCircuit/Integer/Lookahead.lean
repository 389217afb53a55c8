/-
# The carry-lookahead adder

Each position of a sum generates a carry of its own (`generate`) or hands on the carry from
below (`propagate`), and spans of positions do so likewise. Two ways to combine them keep
the depth logarithmic. A Kogge-Stone network gives the carry out of every position: in
levels of stride 1, 2, 4, … each span is joined to the one a stride below it. A balanced
tree gives the carry out of the whole word only. Both join with `xor`, since a span above
the lowest position never generates and propagates at once. All wires are fresh.

Key definitions: `Span`, `strides`, `Build.koggeStone`, `Build.topCarry`, `Build.lookahead`.
-/
import BitCircuit.Integer.Basic
import BitCircuit.Integer.Reduce
import BitCircuit.Integer.Sink

namespace BitCircuit

/-- A run of positions: the wire that says it generates a carry, and the one that says it
propagates the carry from below. -/
structure Span where
  generate : Wire
  propagate : Wire

/-- The strides `d`, `2 * d`, `4 * d`, … below `n`. -/
def strides (n d : Nat) : List Nat :=
  if 0 < d ∧ d < n then d :: strides n (2 * d) else []
termination_by n - d

namespace Build

/-- The wire that says whether two neighbouring spans propagate together, or `unused` where no
one reads it. -/
def propagateBoth (skip : Bool) (unused : Wire) (lo hi : Span) : Build Wire :=
  if skip then return unused else gate .and hi.propagate lo.propagate

/-- One level of the network, on the spans from the top down, the same spans from one stride
further down, and from two. A span reaches its carry when nothing lies two strides below
it, and then its `propagate` is not needed any more. -/
def joinStride : List Span → List Span → List Span → Build (List Span)
  | hi :: his, lo :: los, below => do
    let t ← gate .and hi.propagate lo.generate
    let g ← gate .xor hi.generate t
    let p ← propagateBoth below.isEmpty hi.propagate lo hi
    return ⟨g, p⟩ :: (← joinStride his los below.tail)
  | his, _, _ => return his

/-- The wires that carry out of each position, low end first. -/
def koggeStone (spans : List Span) : Build Bundle := do
  let top ← (strides spans.length 1).foldlM
    (fun top d => joinStride top (top.drop d) (top.drop (2 * d))) spans.reverse
  return top.reverse.map Span.generate

/-- Joins two neighbouring spans. The `propagate` of the lowest span is never read. -/
def joinSpans (lowest : Bool) (lo hi : Span) : Build Span := do
  let t ← gate .and hi.propagate lo.generate
  let g ← gate .xor hi.generate t
  let p ← propagateBoth lowest lo.propagate lo hi
  return ⟨g, p⟩

/-- The wire that carries out of all positions together. -/
def topCarry (spans : List Span) : Build Wire := do
  return (← reduce joinSpans spans).generate

/-- The bits at which carries are generated, for all positions but the top one. The carry
that comes into a subtraction makes its lowest position generate whenever it propagates. -/
def generateBits (dir : Direction) (columns : List (Wire × Wire)) : Build Bundle := do
  let g ← columns.dropLast.mapM fun (x, y) => gate .and x y
  match dir, columns, g with
  | .subtraction, (x, y) :: _, _ :: rest => return (← gate .or x y) :: rest
  | _, _, g => return g

/-- What is added to the first operand: the second one, or its complement to subtract. -/
def addend (dir : Direction) (y : Bundle) : Build Bundle :=
  match dir with
  | .addition => return y
  | .subtraction => y.mapM inv

/-- Drives the wire of the lowest sum bit, if it is wanted. -/
def driveLowest (dir : Direction) : List (Option Wire) → Bundle → Build Unit
  | none :: _, _ :: _ => return ()
  | some out :: _, p :: _ =>
    match dir with
    | .addition => copyTo p out
    | .subtraction => invTo p out
  | _, _ => throw .outOfRange

/-- Drives the wires of the sum bits above the lowest one, from the carries of the spans. -/
def driveUpper (p : Bundle) (spans : List Span) : Sink → Build Unit
  | .all out => do
    let carries ← koggeStone spans
    (← inStep (← inStep p.tail carries) out.tail).forM fun ((p, c), o) => gateTo .xor p c o
  | .bit 0 _ => return ()
  | .bit position out => do
    let carry ← topCarry spans
    gateTo .xor (← Bundle.wireAt p position) carry out

/-- Adds or subtracts with logarithmic depth. The operands are brought to the width of the
sink. -/
def lookahead (a b : Bundle) (sink : Sink) (enc : Encoding) (dir : Direction) :
    Build Unit := do
  let width ← sink.width
  let x ← extend enc width a
  let y ← extend enc width b
  let y ← addend dir y
  let columns ← inStep x y
  let p ← columns.mapM fun (x, y) => gate .xor x y
  let g ← generateBits dir columns
  driveLowest dir sink.targets p
  let spans ← inStep g p.dropLast
  driveUpper p (spans.map fun (g, p) => ⟨g, p⟩) sink

end Build
end BitCircuit
