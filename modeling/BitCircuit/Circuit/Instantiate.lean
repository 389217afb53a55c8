/-
# Replaying a circuit inside another

`Build.instantiate` binds the input and output bundles of a template to bundles of the host
and gives every other wire of the template a wire of its own, in the template's order; a
constant gets the host's constant wire of that value. The gates are then replayed as they
are, without folding. All bindings are checked first, so a binding that does not fit leaves
the host as it was. Nothing is registered in the host. The table of bindings has an entry of
sixteen bytes for each wire of the template, twice as much as a wire takes in a bundle.

Key definitions: `Circuit.requireBindings`, `Circuit.bindingTable`, `Build.instantiate`.
-/
import BitCircuit.Circuit.Eval

namespace BitCircuit
namespace Circuit

/-- The bundles of the host fit the template: their number, no wire both read and written
or written twice, their widths, and each wire readable or writable as its side needs. -/
def requireBindings (host template : Circuit) (ins outs : List Bundle) : Except Error Unit := do
  if ins.length ≠ template.inputs.length then
    throw (.bundleCount ins.length template.inputs.length)
  if outs.length ≠ template.outputs.length then
    throw (.bundleCount outs.length template.outputs.length)
  requireDistinct ins outs
  if ¬ outs.flatten.Nodup then
    throw .aliased
  (template.inputs.zip ins ++ template.outputs.zip outs).forM fun (t, h) =>
    requireWidth h t.length
  ins.flatten.forM host.requireReadable
  outs.flatten.forM host.requireWritable

/-- For each wire of the template the wire of the host it is bound to, if any. Where a wire
is bound twice the later binding counts. -/
def bindingTable (template : Circuit) (ins outs : List Bundle) :
    Except Error (Array (Option Wire)) :=
  (template.inputs.flatten.zip ins.flatten ++ template.outputs.flatten.zip outs.flatten).foldlM
    (fun table (t, h) => setEntry table t.index (some h))
    (Array.replicate template.wires.size none)

end Circuit

namespace Build

/-- The wire of the host for a wire of the template: the one it is bound to, the host's
constant, or a fresh one. -/
def hostWire (state : WireState) : Option Wire → Build Wire
  | some w => return w
  | none =>
    match state with
    | .constant v => constant v
    | _ => newWire

/-- Replays `template` with its input bundles bound to `ins` and its output bundles to
`outs`. -/
def instantiate (template : Circuit) (ins outs : List Bundle) : Build Unit := do
  (← get).requireBindings template ins outs
  let bound ← template.bindingTable ins outs
  let pairs ← inStep template.wires.toList bound.toList
  let table := (← pairs.mapM fun (s, w) => hostWire s w).toArray
  template.gates.forM fun g => do
    let x ← entry table g.x.index
    let y ← entry table g.y.index
    let out ← entry table g.out.index
    drive ⟨g.kind, x, y, out⟩

end Build
end BitCircuit
