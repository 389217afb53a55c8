/-
# Appending gates

Gates that read a constant are folded: `x and 1` is `x` itself, `x and 0` is the constant
`0`, `x xor 1` is an inverter, and so on. The `…To` forms drive a wire that exists already,
which may be one of the wires they read; the others return a wire that carries the result,
a fresh one unless folding finds an old one.

Key definitions: `Circuit.fold?`, `Build.gate`, `Build.gateTo`, `Build.inv`, `Build.invTo`,
`Build.copyTo`.
-/
import BitCircuit.Circuit.Basic

namespace BitCircuit

/-- What a gate that reads a constant amounts to. -/
inductive Folded where
  /-- The constant `value`. -/
  | constant (value : Bool)
  /-- The wire itself. -/
  | same (wire : Wire)
  /-- The complement of the wire. -/
  | inverted (wire : Wire)
deriving DecidableEq, Repr

/-- A gate of this kind that reads `w` and the constant `v`. -/
def GateKind.foldWith : GateKind → Wire → Bool → Option Folded
  | .xor, w, false => some (.same w)
  | .xor, w, true => some (.inverted w)
  | .nxor, w, true => some (.same w)
  | .nxor, w, false => some (.inverted w)
  | .and, w, true => some (.same w)
  | .and, _, false => some (.constant false)
  | .or, w, false => some (.same w)
  | .or, _, true => some (.constant true)
  | .inv, _, _ => none
  | .copy, _, _ => none

/-- What a gate amounts to if one of the wires it reads is constant. -/
def Circuit.fold? (c : Circuit) (kind : GateKind) (x y : Wire) : Option Folded :=
  match c.constantValue? x, c.constantValue? y with
  | some vx, some vy => some (.constant (kind.eval vx vy))
  | some vx, none => kind.foldWith y vx
  | none, some vy => kind.foldWith x vy
  | none, none => none

/-- The kind reads two wires. -/
def GateKind.requireBinary (kind : GateKind) : Except Error Unit :=
  if kind.isUnary then .error (.unaryKind kind) else .ok ()

namespace Build

/-- A wire that carries the complement of `x`. -/
def inv (x : Wire) : Build Wire := do
  requireReadable x
  match (← get).constantValue? x with
  | some v => constant !v
  | none =>
    let out ← newWire
    drive ⟨.inv, x, x, out⟩
    return out

/-- Drives `out` with the complement of `x`. -/
def invTo (x out : Wire) : Build Unit := do
  requireReadable x
  match (← get).constantValue? x with
  | some v =>
    let w ← constant !v
    drive ⟨.copy, w, w, out⟩
  | none => drive ⟨.inv, x, x, out⟩

/-- Drives `out` with the value of `x`. A wire already carries its own value. -/
def copyTo (x out : Wire) : Build Unit := do
  if x = out then
    requireReadable x
    requireWritable out
  else
    drive ⟨.copy, x, x, out⟩

/-- A wire that carries `kind` of `x` and `y`. -/
def gate (kind : GateKind) (x y : Wire) : Build Wire := do
  kind.requireBinary
  requireReadable x
  requireReadable y
  match (← get).fold? kind x y with
  | some (.constant v) => constant v
  | some (.same w) => return w
  | some (.inverted w) => inv w
  | none =>
    let out ← newWire
    drive ⟨kind, x, y, out⟩
    return out

/-- Drives `out` with `kind` of `x` and `y`. -/
def gateTo (kind : GateKind) (x y out : Wire) : Build Unit := do
  kind.requireBinary
  requireReadable x
  requireReadable y
  match (← get).fold? kind x y with
  | some (.constant v) =>
    let w ← constant v
    drive ⟨.copy, w, w, out⟩
  | some (.same w) => if w = out then requireWritable out else drive ⟨.copy, w, w, out⟩
  | some (.inverted w) => drive ⟨.inv, w, w, out⟩
  | none => drive ⟨kind, x, y, out⟩

end Build
end BitCircuit
