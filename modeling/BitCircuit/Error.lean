/-
# What can go wrong

`Error` lists the causes for which a step of building or evaluating a circuit is refused,
and `Error.message` is their wording. Most of them tell the caller that the bundles or wires
handed over do not fit the operation. Two are faults (`Error.isFault`): a position that lies
outside the list it points into, and a size that no list can have.
-/
import BitCircuit.Gate

namespace BitCircuit

/-- Why a step was refused. -/
inductive Error where
  /-- The wire does not exist in this circuit. -/
  | unallocated (wire : Wire)
  /-- The wire is read before any gate drives it. -/
  | undriven (wire : Wire)
  /-- The wire is an input or a constant and must not be driven. -/
  | readOnly (wire : Wire)
  /-- Two bundles that must be disjoint share a wire. -/
  | aliased
  /-- A bundle has the wrong width. -/
  | widthMismatch (got needed : Nat)
  /-- There are too few temporary wires. -/
  | tooFewTemps (got needed : Nat)
  /-- The number of bundles is not that of the circuit. -/
  | bundleCount (got needed : Nat)
  /-- A kind with one input was asked for where two are needed. -/
  | unaryKind (kind : GateKind)
  /-- An expanded key that is not made of at least two whole round keys. -/
  | roundKeys (width : Nat)
  /-- More rounds than the width of an expanded key can express. -/
  | tooManyRounds (rounds : Nat)
  /-- A position outside a bundle, table or arena. -/
  | outOfRange
  /-- A list of more entries than memory can hold. -/
  | tooLarge (size : Nat)
deriving DecidableEq, Repr

namespace Error

/-- The wording of a mismatch of two numbers. -/
private def needed (what : String) (got needed : Nat) : String :=
  what ++ ": needed " ++ toString needed ++ " but got " ++ toString got

/-- The wording of an error. -/
def message : Error → String
  | unallocated w => "wire " ++ w.text ++ " was never allocated"
  | undriven w =>
    "wire " ++ w.text
      ++ " is read before any gate drives it. is the circuit topologically sorted?"
  | readOnly w => "wire " ++ w.text ++ " is an input or constant and cannot be driven"
  | aliased => "bundles must not share wires"
  | widthMismatch got n => needed "invalid bundle width" got n
  | tooFewTemps got n => needed "not enough temporary wires" got n
  | bundleCount got n => needed "invalid number of bundles" got n
  | unaryKind k => "invalid argument: " ++ k.name ++ " is unary, use add_inv or add_copy_to"
  | roundKeys w =>
    "invalid argument: expanded key of " ++ toString w
      ++ " bits is not a whole number of round keys past the first"
  | tooManyRounds r => "invalid argument: " ++ toString r ++ " AES rounds"
  | outOfRange => "position out of range"
  | tooLarge n => "a list of " ++ toString n ++ " entries is too large"

/-- The errors that no caller is told about: the run ends with them. -/
def isFault : Error → Bool
  | outOfRange => true
  | tooLarge _ => true
  | _ => false

end Error
end BitCircuit
