/-
# Evaluating a circuit

The gates run in order over a table with one value for each wire. Constants start with
their value, inputs with the bits they are given, and all other wires with `false`; a gate
reads what was driven last before it.

Key definitions: `Gate.run`, `Circuit.evalBits`, `Circuit.evalWords`.
-/
import BitCircuit.Circuit.Basic

namespace BitCircuit

/-- The entry of a table at position `i`. -/
def entry {α : Type} (table : Array α) (i : Nat) : Except Error α :=
  match table[i]? with
  | some v => .ok v
  | none => .error .outOfRange

/-- The table with the entry at position `i` replaced. -/
def setEntry {α : Type} (table : Array α) (i : Nat) (v : α) : Except Error (Array α) :=
  if h : i < table.size then .ok (table.set i v h) else .error .outOfRange

/-- One gate: the value it computes becomes the value of the wire it drives. -/
def Gate.run (values : Array Bool) (g : Gate) : Except Error (Array Bool) := do
  let x ← entry values g.x.index
  let y ← entry values g.y.index
  setEntry values g.out.index (g.kind.eval x y)

namespace Circuit

/-- The values of the wires before any input is bound: those of the constants. -/
def initialValues (c : Circuit) : Array Bool :=
  c.wires.map fun s => decide (s = .constant true)

/-- Gives the wires of an input bundle their bits. -/
def bindInput (values : Array Bool) (binding : Bundle × List Bool) :
    Except Error (Array Bool) := do
  let (bundle, bits) := binding
  if bits.length ≠ bundle.length then
    throw (.widthMismatch bits.length bundle.length)
  (bundle.zip bits).foldlM (fun values (w, b) => setEntry values w.index b) values

/-- The values on the output bundles for given values of the input bundles. -/
def evalBits (c : Circuit) (inputs : List (List Bool)) : Except Error (List (List Bool)) := do
  if inputs.length ≠ c.inputs.length then
    throw (.bundleCount inputs.length c.inputs.length)
  c.outputs.flatten.forM c.requireReadable
  let values ← (c.inputs.zip inputs).foldlM bindInput c.initialValues
  let values ← c.gates.foldlM Gate.run values
  c.outputs.mapM fun b => b.mapM fun w => entry values w.index

/-- Evaluation on words: each is cut to, or filled with zeros up to, the width of its bundle,
and of each output the low 128 bits are returned. -/
def evalWords (c : Circuit) (inputs : List Word) : Except Error (List Word) := do
  if inputs.length ≠ c.inputs.length then
    throw (.bundleCount inputs.length c.inputs.length)
  let outputs ← c.evalBits ((inputs.zip c.inputs).map fun (x, b) => x.unsignedBits b.length)
  return outputs.map Word.ofUnsignedBits

end Circuit
end BitCircuit
