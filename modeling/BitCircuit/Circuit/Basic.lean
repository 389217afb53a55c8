/-
# Circuits and build steps

A circuit is an arena of wires, the gates that drive them in evaluation order, and the
bundles registered as inputs, outputs and temporaries. It only ever grows. It holds at most
one constant wire for each value and remembers which one it is.

A build step (`Build`) is an action on a circuit that may be refused. What it did to the
circuit before it was refused stays done: `Build.exec` returns the circuit in both cases, and
a refused step ends the steps after it (`Build.exec_bind`).

A bundle is made in one piece, and one that is too wide for that is refused. The wires and
gates of a circuit are lists that grow, and a step that appends to them does not look at their
room (`byteRoom`, `gateRoom`): that is asked of the circuit that comes out.

Key definitions: `WireState`, `Circuit`, `Build`, `Build.exec`, `Build.allocate`,
`Build.constant`, `Build.drive`.
Key theorems: `Build.exec_bind`, `Build.exec_constant`, `Build.exec_drive`.
-/
import BitCircuit.Word
import BitCircuit.Bundle

namespace BitCircuit

/-- What is known about a wire of a circuit. -/
inductive WireState where
  /-- Its value is given from outside. -/
  | input
  /-- It always carries `value`. -/
  | constant (value : Bool)
  /-- No gate drives it yet. -/
  | undriven
  /-- At least one gate drives it. -/
  | driven
deriving DecidableEq, Repr

/-- A Boolean circuit. The order of `gates` is the order of evaluation. -/
structure Circuit where
  wires : Array WireState := #[]
  gates : Array Gate := #[]
  inputs : List Bundle := []
  outputs : List Bundle := []
  temps : List Bundle := []
  falseWire : Option Wire := none
  trueWire : Option Wire := none
deriving DecidableEq, Repr

namespace Circuit

/-- The circuit without wires. -/
def empty : Circuit := {}

/-! ### Looking at a circuit -/

/-- The state of a wire, if it is allocated. -/
def state? (c : Circuit) (w : Wire) : Option WireState :=
  c.wires[w.index]?

/-- The constant wire that carries `v`, if there is one. -/
def constantWire? (c : Circuit) (v : Bool) : Option Wire :=
  if v then c.trueWire else c.falseWire

/-- The value of a constant wire; `none` for every other wire. -/
def constantValue? (c : Circuit) (w : Wire) : Option Bool :=
  match c.state? w with
  | some (.constant v) => some v
  | _ => none

/-- A gate may read every allocated wire that has a value. -/
def requireReadable (c : Circuit) (w : Wire) : Except Error Unit :=
  match c.state? w with
  | none => .error (.unallocated w)
  | some .undriven => .error (.undriven w)
  | some _ => .ok ()

/-- A gate may drive every allocated wire that is neither an input nor a constant. -/
def requireWritable (c : Circuit) (w : Wire) : Except Error Unit :=
  match c.state? w with
  | none => .error (.unallocated w)
  | some .input => .error (.readOnly w)
  | some (.constant _) => .error (.readOnly w)
  | some _ => .ok ()

/-- A gate reads wires that have values and drives a wire that may be driven. -/
def requireGate (c : Circuit) (g : Gate) : Except Error Unit := do
  c.requireReadable g.x
  c.requireReadable g.y
  c.requireWritable g.out

/-! ### Growing a circuit -/

/-- The wire that is allocated next. -/
def nextWire (c : Circuit) : Wire := ⟨c.wires.size⟩

/-- The `width` wires that are allocated next. -/
def nextBundle (c : Circuit) (width : Nat) : Bundle :=
  (List.range' c.wires.size width).map Wire.mk

/-- Allocates one wire. -/
def addWire (c : Circuit) (state : WireState) : Circuit :=
  { c with wires := c.wires.push state }

/-- Allocates `width` wires. -/
def addWires (c : Circuit) (state : WireState) (width : Nat) : Circuit :=
  { c with wires := c.wires ++ Array.replicate width state }

/-- Allocates a constant wire and remembers it. -/
def addConstant (c : Circuit) (v : Bool) : Circuit :=
  let w := c.nextWire
  let c := c.addWire (.constant v)
  if v then { c with trueWire := some w } else { c with falseWire := some w }

/-- Appends a gate; the wire it drives counts as driven from now on. -/
def pushGate (c : Circuit) (g : Gate) : Circuit :=
  { c with
    gates := c.gates.push g
    wires := c.wires.setIfInBounds g.out.index .driven }

end Circuit

/-- A step of building a circuit. -/
abbrev Build := ExceptT Error (StateM Circuit)

namespace Build

variable {α β : Type}

/-- Runs a step on a circuit: its result, or why it was refused, and the circuit after it. -/
def exec (step : Build α) (c : Circuit) : Except Error α × Circuit :=
  step.run c

/-- Allocates `width` wires in the given state, if a bundle can be that wide. -/
def allocate (state : WireState) (width : Nat) : Build Bundle := do
  requireBelow wireLimit width
  modifyGet fun c => (c.nextBundle width, c.addWires state width)

/-- Allocates a wire that no gate drives yet. -/
def newWire : Build Wire :=
  modifyGet fun c => (c.nextWire, c.addWire .undriven)

/-- Allocates `width` undriven wires without registering them. -/
def newBundle (width : Nat) : Build Bundle :=
  allocate .undriven width

/-- Allocates and registers an input bundle. -/
def addInput (width : Nat) : Build Bundle := do
  let b ← allocate .input width
  modify fun c => { c with inputs := c.inputs ++ [b] }
  return b

/-- Allocates and registers an output bundle. Gates have to drive all of it. -/
def addOutput (width : Nat) : Build Bundle := do
  let b ← newBundle width
  modify fun c => { c with outputs := c.outputs ++ [b] }
  return b

/-- Allocates and registers a bundle of temporaries. -/
def addTemps (width : Nat) : Build Bundle := do
  let b ← newBundle width
  modify fun c => { c with temps := c.temps ++ [b] }
  return b

/-- The constant wire that carries `v`, allocated when it is first asked for. -/
def constant (v : Bool) : Build Wire := do
  match (← get).constantWire? v with
  | some w => return w
  | none => modifyGet fun c => (c.nextWire, c.addConstant v)

/-- Constant wires that spell the low `width` bits of `x` in two's complement, if a bundle
can be that wide. -/
def constantBundle (x : Word) (width : Nat) : Build Bundle := do
  requireBelow wireLimit width
  (x.signedBits width).mapM constant

/-- Refuses a wire that must not be read. -/
def requireReadable (w : Wire) : Build Unit := do
  (← get).requireReadable w

/-- Refuses a wire that must not be driven. -/
def requireWritable (w : Wire) : Build Unit := do
  (← get).requireWritable w

/-- Appends a gate as it is. A wire may be driven again. -/
def drive (g : Gate) : Build Unit := do
  (← get).requireGate g
  modify fun c => c.pushGate g

/-! ### How steps run -/

@[simp] theorem exec_pure (a : α) (c : Circuit) : (pure a : Build α).exec c = (.ok a, c) := rfl

@[simp] theorem exec_throw (e : Error) (c : Circuit) :
    (throw e : Build α).exec c = (.error e, c) := rfl

@[simp] theorem exec_get (c : Circuit) : (get : Build Circuit).exec c = (.ok c, c) := rfl

@[simp] theorem exec_modify (f : Circuit → Circuit) (c : Circuit) :
    (modify f : Build Unit).exec c = (.ok (), f c) := rfl

@[simp] theorem exec_modifyGet (f : Circuit → α × Circuit) (c : Circuit) :
    (modifyGet f : Build α).exec c = (.ok (f c).1, (f c).2) := rfl

/-- A check leaves the circuit alone. -/
@[simp] theorem exec_liftM (check : Except Error α) (c : Circuit) :
    (liftM check : Build α).exec c = (check, c) := rfl

/-- **A refused step ends the steps after it,** and the circuit stays as it left it. -/
theorem exec_bind (x : Build α) (f : α → Build β) (c : Circuit) :
    (x >>= f).exec c =
      match x.exec c with
      | (.ok a, c') => (f a).exec c'
      | (.error e, c') => (.error e, c') := by
  simp only [exec, bind, ExceptT.bind, ExceptT.mk, ExceptT.run, StateT.bind]
  rcases x c with ⟨r, c'⟩
  cases r <;> rfl

/-- Allocation is refused only beyond the limit of a bundle, and then nothing happens. -/
theorem exec_allocate (state : WireState) (width : Nat) (c : Circuit) :
    (allocate state width).exec c =
      if width < wireLimit then (.ok (c.nextBundle width), c.addWires state width)
      else (.error (.tooLarge width), c) := by
  simp only [allocate, exec_bind, exec_liftM, requireBelow]
  by_cases h : width < wireLimit
  · simp [h]
  · simp [h]

@[simp] theorem exec_newWire (c : Circuit) :
    newWire.exec c = (.ok c.nextWire, c.addWire .undriven) := rfl

@[simp] theorem exec_requireReadable (w : Wire) (c : Circuit) :
    (requireReadable w).exec c = (c.requireReadable w, c) := rfl

@[simp] theorem exec_requireWritable (w : Wire) (c : Circuit) :
    (requireWritable w).exec c = (c.requireWritable w, c) := rfl

/-- A constant is allocated only if it is not there yet. -/
theorem exec_constant (v : Bool) (c : Circuit) :
    (constant v).exec c =
      match c.constantWire? v with
      | some w => (.ok w, c)
      | none => (.ok c.nextWire, c.addConstant v) := by
  simp only [constant, exec_bind, exec_get]
  cases c.constantWire? v <;> rfl

/-- A gate is appended if it passes the check; otherwise nothing happens. -/
theorem exec_drive (g : Gate) (c : Circuit) :
    (drive g).exec c =
      match c.requireGate g with
      | .ok () => (.ok (), c.pushGate g)
      | .error e => (.error e, c) := by
  simp only [drive, exec_bind, exec_get, exec_liftM]
  cases c.requireGate g <;> rfl

end Build
end BitCircuit
