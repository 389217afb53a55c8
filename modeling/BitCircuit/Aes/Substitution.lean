/-
# The byte substitution as a network

A network of 34 `and` gates and otherwise linear ones, of depth 16, that substitutes one
byte. It is data: a list of gates over numbered signals, each adding one signal. The network
names the bits of its input from the most significant down, so signal `u k` is bit `7 - k`.
After these come the signals `t`, linear in the input, `m`, the inversion in the field, and
`l`, from which the eight output bits are formed.

Key definitions: `Aes.NetworkGate`, `Aes.networkGates`, `Aes.outputGates`,
`Build.substituteByte`.
-/
import BitCircuit.Circuit.Folding
import BitCircuit.Circuit.Eval

namespace BitCircuit
namespace Aes

/-- A gate of a network that reads the signals numbered `x` and `y`. -/
structure NetworkGate where
  kind : GateKind
  x : Nat
  y : Nat
deriving DecidableEq, Repr

namespace Signal

/-- The number of input bit `7 - k`. -/
def u (k : Nat) : Nat := k

/-- The number of linear signal `k`, from 1. -/
def t (k : Nat) : Nat := 7 + k

/-- The number of inversion signal `k`, from 1. -/
def m (k : Nat) : Nat := 34 + k

/-- The number of output signal `k`, from 0. -/
def l (k : Nat) : Nat := 98 + k

end Signal

open Signal

/-- The signals `t`. -/
def linearGates : List NetworkGate :=
  [⟨.xor, u 0, u 3⟩, ⟨.xor, u 0, u 5⟩, ⟨.xor, u 0, u 6⟩, ⟨.xor, u 3, u 5⟩, ⟨.xor, u 4, u 6⟩,
   ⟨.xor, t 1, t 5⟩, ⟨.xor, u 1, u 2⟩, ⟨.xor, u 7, t 6⟩, ⟨.xor, u 7, t 7⟩, ⟨.xor, t 6, t 7⟩,
   ⟨.xor, u 1, u 5⟩, ⟨.xor, u 2, u 5⟩, ⟨.xor, t 3, t 4⟩, ⟨.xor, t 6, t 11⟩, ⟨.xor, t 5, t 11⟩,
   ⟨.xor, t 5, t 12⟩, ⟨.xor, t 9, t 16⟩, ⟨.xor, u 3, u 7⟩, ⟨.xor, t 7, t 18⟩, ⟨.xor, t 1, t 19⟩,
   ⟨.xor, u 6, u 7⟩, ⟨.xor, t 7, t 21⟩, ⟨.xor, t 2, t 22⟩, ⟨.xor, t 2, t 10⟩,
   ⟨.xor, t 20, t 17⟩, ⟨.xor, t 3, t 16⟩, ⟨.xor, t 1, t 12⟩]

/-- The signals `m`. -/
def inversionGates : List NetworkGate :=
  [⟨.and, t 13, t 6⟩, ⟨.and, t 23, t 8⟩, ⟨.xor, t 14, m 1⟩, ⟨.and, t 19, u 7⟩, ⟨.xor, m 4, m 1⟩,
   ⟨.and, t 3, t 16⟩, ⟨.and, t 22, t 9⟩, ⟨.xor, t 26, m 6⟩, ⟨.and, t 20, t 17⟩,
   ⟨.xor, m 9, m 6⟩, ⟨.and, t 1, t 15⟩, ⟨.and, t 4, t 27⟩, ⟨.xor, m 12, m 11⟩,
   ⟨.and, t 2, t 10⟩, ⟨.xor, m 14, m 11⟩, ⟨.xor, m 3, m 2⟩, ⟨.xor, m 5, t 24⟩, ⟨.xor, m 8, m 7⟩,
   ⟨.xor, m 10, m 15⟩, ⟨.xor, m 16, m 13⟩, ⟨.xor, m 17, m 15⟩, ⟨.xor, m 18, m 13⟩,
   ⟨.xor, m 19, t 25⟩, ⟨.xor, m 22, m 23⟩, ⟨.and, m 22, m 20⟩, ⟨.xor, m 21, m 25⟩,
   ⟨.xor, m 20, m 21⟩, ⟨.xor, m 23, m 25⟩, ⟨.and, m 28, m 27⟩, ⟨.and, m 26, m 24⟩,
   ⟨.and, m 20, m 23⟩, ⟨.and, m 27, m 31⟩, ⟨.xor, m 27, m 25⟩, ⟨.and, m 21, m 22⟩,
   ⟨.and, m 24, m 34⟩, ⟨.xor, m 24, m 25⟩, ⟨.xor, m 21, m 29⟩, ⟨.xor, m 32, m 33⟩,
   ⟨.xor, m 23, m 30⟩, ⟨.xor, m 35, m 36⟩, ⟨.xor, m 38, m 40⟩, ⟨.xor, m 37, m 39⟩,
   ⟨.xor, m 37, m 38⟩, ⟨.xor, m 39, m 40⟩, ⟨.xor, m 42, m 41⟩, ⟨.and, m 44, t 6⟩,
   ⟨.and, m 40, t 8⟩, ⟨.and, m 39, u 7⟩, ⟨.and, m 43, t 16⟩, ⟨.and, m 38, t 9⟩,
   ⟨.and, m 37, t 17⟩, ⟨.and, m 42, t 15⟩, ⟨.and, m 45, t 27⟩, ⟨.and, m 41, t 10⟩,
   ⟨.and, m 44, t 13⟩, ⟨.and, m 40, t 23⟩, ⟨.and, m 39, t 19⟩, ⟨.and, m 43, t 3⟩,
   ⟨.and, m 38, t 22⟩, ⟨.and, m 37, t 20⟩, ⟨.and, m 42, t 1⟩, ⟨.and, m 45, t 4⟩,
   ⟨.and, m 41, t 2⟩]

/-- The signals `l`. -/
def mixingGates : List NetworkGate :=
  [⟨.xor, m 61, m 62⟩, ⟨.xor, m 50, m 56⟩, ⟨.xor, m 46, m 48⟩, ⟨.xor, m 47, m 55⟩,
   ⟨.xor, m 54, m 58⟩, ⟨.xor, m 49, m 61⟩, ⟨.xor, m 62, l 5⟩, ⟨.xor, m 46, l 3⟩,
   ⟨.xor, m 51, m 59⟩, ⟨.xor, m 52, m 53⟩, ⟨.xor, m 53, l 4⟩, ⟨.xor, m 60, l 2⟩,
   ⟨.xor, m 48, m 51⟩, ⟨.xor, m 50, l 0⟩, ⟨.xor, m 52, m 61⟩, ⟨.xor, m 55, l 1⟩,
   ⟨.xor, m 56, l 0⟩, ⟨.xor, m 57, l 1⟩, ⟨.xor, m 58, l 8⟩, ⟨.xor, m 63, l 4⟩, ⟨.xor, l 0, l 1⟩,
   ⟨.xor, l 1, l 7⟩, ⟨.xor, l 3, l 12⟩, ⟨.xor, l 18, l 2⟩, ⟨.xor, l 15, l 9⟩, ⟨.xor, l 6, l 10⟩,
   ⟨.xor, l 7, l 9⟩, ⟨.xor, l 8, l 10⟩, ⟨.xor, l 11, l 14⟩, ⟨.xor, l 11, l 17⟩]

/-- All signals past the input, in the order of their numbers. -/
def networkGates : List NetworkGate :=
  linearGates ++ inversionGates ++ mixingGates

/-- The gates that form the output, each with the number of its bit. -/
def outputGates : List (NetworkGate × Nat) :=
  [(⟨.xor, l 6, l 24⟩, 7),
   (⟨.nxor, l 16, l 26⟩, 6),
   (⟨.nxor, l 19, l 28⟩, 5),
   (⟨.xor, l 6, l 21⟩, 4),
   (⟨.xor, l 20, l 22⟩, 3),
   (⟨.xor, l 25, l 29⟩, 2),
   (⟨.nxor, l 13, l 27⟩, 1),
   (⟨.nxor, l 6, l 23⟩, 0)]

end Aes

namespace Build

open Aes

/-- Adds the signal of one gate. -/
def addSignal (signals : Array Wire) (g : NetworkGate) : Build (Array Wire) := do
  let x ← entry signals g.x
  let y ← entry signals g.y
  return signals.push (← gate g.kind x y)

/-- Drives the eight wires of `out` with the substitute of the byte `a`. -/
def substituteByte (a out : Bundle) : Build Unit := do
  requireWidth a 8
  requireWidth out 8
  requireDistinct [out] [a]
  let signals ← networkGates.foldlM addSignal a.reverse.toArray
  outputGates.forM fun (g, bit) => do
    let x ← entry signals g.x
    let y ← entry signals g.y
    gateTo g.kind x y (← out.wireAt bit)

end Build
end BitCircuit
