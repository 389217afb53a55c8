/-
# Integers on bundles

How the bits of a bundle are read (`Encoding`), what a construction should keep small
(`Objective`), which way an adder runs (`Direction`), and how an operand is brought to the
width of a result.

Key definitions: `Objective`, `Encoding`, `Direction`, `Build.extend`, `Build.adderTemps`.
-/
import BitCircuit.Circuit.Folding

namespace BitCircuit

/-- What a construction keeps small. -/
inductive Objective where
  /-- The number of gates. -/
  | size
  /-- The length of the longest chain of gates. -/
  | depth
deriving DecidableEq, Repr

/-- The name of an objective in reports. -/
def Objective.text : Objective → String
  | .size => "Optimized::Size"
  | .depth => "Optimized::Depth"

/-- How bits are read as an integer, and so how a narrow operand is widened. -/
inductive Encoding where
  /-- The top bit carries the sign. -/
  | twosComplement
  /-- Plain binary. -/
  | unsigned
deriving DecidableEq, Repr

/-- The name of an encoding in reports. -/
def Encoding.text : Encoding → String
  | .twosComplement => "IntType::TwosComplement"
  | .unsigned => "IntType::Unsigned"

/-- Which way an adder runs. -/
inductive Direction where
  | addition
  | subtraction
deriving DecidableEq, Repr

/-- The name of a direction in reports. -/
def Direction.text : Direction → String
  | .addition => "AdderType::Addition"
  | .subtraction => "AdderType::Subtraction"

namespace Build

/-- The wire that fills the positions above a bundle: its sign or the constant zero. -/
def padding (enc : Encoding) (a : Bundle) : Build Wire :=
  match enc with
  | .twosComplement => a.msb
  | .unsigned => constant false

/-- Brings `a` to `width` bits, dropping its high bits or padding it as far as a bundle can
reach. Adds no gate. -/
def extend (enc : Encoding) (width : Nat) (a : Bundle) : Build Bundle := do
  if width ≤ a.length then
    return a.take width
  else
    let pad ← padding enc a
    requireBelow wireLimit width
    return a ++ List.replicate (width - a.length) pad

/-- The temporaries of an adder: a small one needs two, a shallow one none. -/
def adderTemps : Objective → Build Bundle
  | .size => addTemps 2
  | .depth => return []

end Build
end BitCircuit
