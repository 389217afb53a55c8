/-
# Balanced reduction

Joins a list of parts down to one in a balanced tree: in each level neighbours are joined,
the low one first, and a part without neighbour is carried over.

Key definitions: `Build.joinPairs`, `Build.reduce`, `Build.orAll`.
-/
import BitCircuit.Circuit.Folding

namespace BitCircuit
namespace Build

variable {α : Type}

/-- One level of the tree. `join` is told whether its pair is the lowest one. -/
def joinPairs (join : Bool → α → α → Build α) : Bool → List α → Build (List α)
  | lowest, lo :: hi :: rest => do
    let joined ← join lowest lo hi
    return joined :: (← joinPairs join false rest)
  | _, parts => return parts

/-- At most `levels` levels, as long as two parts are left. -/
def joinLevels (join : Bool → α → α → Build α) : Nat → List α → Build (List α)
  | levels + 1, lo :: hi :: rest => do
    joinLevels join levels (← joinPairs join true (lo :: hi :: rest))
  | _, parts => return parts

/-- Joins all parts; there has to be one. A level leaves fewer parts than it found, so there
are at most as many levels as parts. -/
def reduce (join : Bool → α → α → Build α) (parts : List α) : Build α := do
  match ← joinLevels join parts.length parts with
  | joined :: _ => return joined
  | [] => throw (.widthMismatch 0 1)

/-- A wire that carries the disjunction of all of `wires`. -/
def orAll (wires : Bundle) : Build Wire :=
  reduce (fun _ x y => gate .or x y) wires

end Build
end BitCircuit
