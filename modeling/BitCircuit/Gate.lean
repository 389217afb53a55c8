/-
# Wires, gates and bundles

A wire is a position in the arena of some circuit, a gate reads one or two wires and
drives one, and a bundle lists the wires of one integer, low bit first. None of them
owns anything: the same wire index may be used with several circuits.

Key definitions: `Wire`, `GateKind`, `Gate`, `Bundle`.
-/

namespace BitCircuit

/-- A wire, named by its position in the arena of its circuit. -/
structure Wire where
  index : Nat
deriving DecidableEq, Repr

/-- A wire is written `w` and its position. -/
def Wire.text (w : Wire) : String :=
  "w" ++ toString w.index

/-- What a gate computes. -/
inductive GateKind where
  | xor
  | nxor
  | and
  | or
  | inv
  | copy
deriving DecidableEq, Repr

namespace GateKind

/-- All kinds, in the order in which they are reported. -/
def all : List GateKind := [.xor, .nxor, .and, .or, .inv, .copy]

/-- The name of a kind in the text of a gate. -/
def name : GateKind → String
  | .xor => "Xor"
  | .nxor => "Nxor"
  | .and => "And"
  | .or => "Or"
  | .inv => "Inv"
  | .copy => "Copy"

/-- The kinds that read a single wire. -/
def isUnary : GateKind → Bool
  | .inv | .copy => true
  | _ => false

/-- The kinds that are linear over the field of two elements. -/
def isLinear : GateKind → Bool
  | .and | .or => false
  | _ => true

/-- The value a gate drives; a unary kind ignores `y`. -/
def eval : GateKind → Bool → Bool → Bool
  | .xor, x, y => x ^^ y
  | .nxor, x, y => !(x ^^ y)
  | .and, x, y => x && y
  | .or, x, y => x || y
  | .inv, x, _ => !x
  | .copy, x, _ => x

end GateKind

/-- A gate reads `x` and `y` and drives `out`. A unary gate has its input in both places. -/
structure Gate where
  kind : GateKind
  x : Wire
  y : Wire
  out : Wire
deriving DecidableEq, Repr

namespace Gate

/-- The wires a gate reads, each once. -/
def reads (g : Gate) : List Wire :=
  if g.kind.isUnary then [g.x] else [g.x, g.y]

/-- A gate is written as its kind, the wires it reads and the wire it drives. -/
def text (g : Gate) : String :=
  g.kind.name ++ " ( " ++ String.intercalate ", " (g.reads.map Wire.text) ++ " ) -> " ++ g.out.text

end Gate

/-- The wires of one integer, low bit first. -/
abbrev Bundle := List Wire

end BitCircuit
