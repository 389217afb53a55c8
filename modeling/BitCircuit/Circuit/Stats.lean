/-
# Statistics of a circuit

Gate counts and depth. The depth of a wire is the largest cost of a chain of gates that
leads to it, where a copy costs nothing; the nonlinear depth counts only `and` and `or`
gates. Depth is measured at the driven output wires, or over all gates if the circuit has
no output bundle. The tables of depths have an entry of eight bytes for each wire, so they can
be made of a circuit with fewer than `wireLimit` wires.

Key definitions: `Circuit.depthBy`, `Stats`, `Circuit.stats`, `Stats.text`.
-/
import BitCircuit.Circuit.Eval

namespace BitCircuit

namespace GateKind

/-- Each gate costs one, a copy nothing. -/
def depthCost (kind : GateKind) : Nat :=
  if kind = .copy then 0 else 1

/-- Each nonlinear gate costs one, all others nothing. -/
def nonlinearCost (kind : GateKind) : Nat :=
  if kind.isLinear then 0 else 1

end GateKind

/-- The depth of each wire so far, and the largest depth any gate has reached. -/
structure DepthTable where
  depths : Array Nat
  deepest : Nat

/-- One gate: it is as deep as the deeper of the wires it reads, and its own cost deeper. -/
def DepthTable.push (cost : GateKind → Nat) (t : DepthTable) (g : Gate) :
    Except Error DepthTable := do
  let x ← entry t.depths g.x.index
  let y ← entry t.depths g.y.index
  let d := max x y + cost g.kind
  return ⟨← setEntry t.depths g.out.index d, max t.deepest d⟩

namespace Circuit

/-- The depth of an output wire, which counts only once it is driven. -/
def outputDepth (c : Circuit) (depths : Array Nat) (w : Wire) : Except Error Nat := do
  if (← entry c.wires w.index) = .driven then entry depths w.index else return 0

/-- The depth of the circuit if a gate costs what `cost` says. -/
def depthBy (c : Circuit) (cost : GateKind → Nat) : Except Error Nat := do
  let t ← c.gates.foldlM (DepthTable.push cost) ⟨Array.replicate c.wires.size 0, 0⟩
  if c.outputs.isEmpty then
    return t.deepest
  else
    return (← c.outputs.flatten.mapM (c.outputDepth t.depths)).foldl max 0

/-- The number of gates of one kind. -/
def countKind (c : Circuit) (kind : GateKind) : Nat :=
  c.gates.countP fun g => g.kind = kind

end Circuit

/-- What is reported about a circuit: the sizes of its interface and arena, the number of
gates of each kind, and the two depths. -/
structure Stats where
  inputs : Nat
  outputs : Nat
  wires : Nat
  count : GateKind → Nat
  depth : Nat
  nonlinearDepth : Nat

namespace Stats

/-- The number of all gates. -/
def gates (s : Stats) : Nat :=
  s.count .xor + s.count .nxor + s.count .and + s.count .or + s.count .inv + s.count .copy

/-- The number of `and` and `or` gates. -/
def nonlinear (s : Stats) : Nat :=
  s.count .and + s.count .or

/-- Fills up with blanks on the right. -/
private def padRight (width : Nat) (s : String) : String :=
  s ++ String.ofList (List.replicate (width - s.length) ' ')

/-- Fills up with blanks on the left. -/
private def padLeft (width : Nat) (s : String) : String :=
  String.ofList (List.replicate (width - s.length) ' ') ++ s

/-- A line of the report: the label in 20 columns, the number right-aligned in 16. -/
def row (label : String) (n : Nat) : String :=
  "  " ++ padRight 20 (label ++ ":") ++ padLeft 16 (toString n) ++ "\n"

/-- The report, one line for each number. -/
def text (s : Stats) : String :=
  "circuit info:\n"
    ++ row "inputs" s.inputs
    ++ row "outputs" s.outputs
    ++ row "wires" s.wires
    ++ row "xor" (s.count .xor)
    ++ row "nxor" (s.count .nxor)
    ++ row "and" (s.count .and)
    ++ row "or" (s.count .or)
    ++ row "inv" (s.count .inv)
    ++ row "copy" (s.count .copy)
    ++ row "total gates" s.gates
    ++ row "nonlinear gates" s.nonlinear
    ++ row "depth" s.depth
    ++ row "nonlinear depth" s.nonlinearDepth

end Stats

/-- The statistics of a circuit. -/
def Circuit.stats (c : Circuit) : Except Error Stats := do
  return {
    inputs := c.inputs.flatten.length
    outputs := c.outputs.flatten.length
    wires := c.wires.size
    count := c.countKind
    depth := ← c.depthBy GateKind.depthCost
    nonlinearDepth := ← c.depthBy GateKind.nonlinearCost }

end BitCircuit
