/-
# Bundles

Reading parts of a bundle, and the requirements that operations place on the bundles they
are given. Each requirement is checked before a circuit is touched and names its cause.

Key definitions: `Bundle.wireAt`, `Bundle.slice`, `Bundle.msb`, `Bundle.disjoint`,
`requireNonempty`, `requireWidth`, `requireTemps`, `requireDistinct`, `inStep`.
-/
import BitCircuit.Size

namespace BitCircuit
namespace Bundle

/-- The wire at position `i`. -/
def wireAt (b : Bundle) (i : Nat) : Except Error Wire :=
  match b[i]? with
  | some w => .ok w
  | none => .error .outOfRange

/-- The wires at positions `lo` to `hi - 1`. -/
def slice (b : Bundle) (lo hi : Nat) : Except Error Bundle :=
  if lo ≤ hi ∧ hi ≤ b.length then .ok ((b.take hi).drop lo) else .error .outOfRange

/-- The most significant wire, which carries the sign in two's complement. -/
def msb (b : Bundle) : Except Error Wire :=
  match b.getLast? with
  | some w => .ok w
  | none => .error (.widthMismatch 0 1)

/-- The two bundles share no wire. -/
def disjoint (a b : Bundle) : Bool :=
  a.all fun w => !b.contains w

end Bundle

/-- Every bundle has at least one wire. -/
def requireNonempty (bundles : List Bundle) : Except Error Unit :=
  if bundles.any List.isEmpty then .error (.widthMismatch 0 1) else .ok ()

/-- The bundle has exactly `needed` wires. -/
def requireWidth (b : Bundle) (needed : Nat) : Except Error Unit :=
  if b.length = needed then .ok () else .error (.widthMismatch b.length needed)

/-- There are at least `needed` temporaries. -/
def requireTemps (temps : Bundle) (needed : Nat) : Except Error Unit :=
  if temps.length < needed then .error (.tooFewTemps temps.length needed) else .ok ()

/-- No bundle that is written shares a wire with one of the others. -/
def requireDistinct (written others : List Bundle) : Except Error Unit :=
  if written.all fun w => others.all (Bundle.disjoint w) then .ok () else .error .aliased

/-- Pairs two lists position by position. They run in step: where one ends before the
other there is a position outside the shorter one. -/
def inStep {α β : Type} (xs : List α) (ys : List β) : Except Error (List (α × β)) :=
  if xs.length = ys.length then .ok (xs.zip ys) else .error .outOfRange

end BitCircuit
