/-
# Addition and subtraction

The adders that the other operations use. A small one ripples its carry through two
temporaries; a shallow one looks ahead and needs none.

Key definitions: `Build.addSub`, `Build.add`, `Build.subtract`, `Build.sumBit`.
-/
import BitCircuit.Integer.Ripple
import BitCircuit.Integer.Lookahead

namespace BitCircuit
namespace Build

/-- Drives `out` with `a + b` or `a - b`, cut to its width, by a ripple-carry chain. -/
def addRipple (a b out temps : Bundle) (enc : Encoding) (dir : Direction) : Build Unit := do
  requireOperands a b (.all out)
  ripple a b (.all out) temps enc dir

/-- Drives `out` with `a + b` or `a - b`, cut to its width, by carry lookahead. -/
def addLookahead (a b out : Bundle) (enc : Encoding) (dir : Direction) : Build Unit := do
  requireOperands a b (.all out)
  lookahead a b (.all out) enc dir

/-- Drives `out` with `a + b` or `a - b`, cut to its width. -/
def addSub (dir : Direction) (a b out temps : Bundle) (enc : Encoding) :
    Objective → Build Unit
  | .size => addRipple a b out temps enc dir
  | .depth => addLookahead a b out enc dir

/-- Drives `out` with `a + b`, cut to its width. -/
def add (a b out temps : Bundle) (enc : Encoding) (obj : Objective) : Build Unit :=
  addSub .addition a b out temps enc obj

/-- Drives `out` with `a - b`, cut to its width. -/
def subtract (a b out temps : Bundle) (enc : Encoding) (obj : Objective) : Build Unit :=
  addSub .subtraction a b out temps enc obj

/-- Drives the single wire of `out` with one bit of `a + b` or `a - b`. The operands are
widened as far as needed, so that above their width the bit is the sign of the result. -/
def sumBit (a b out temps : Bundle) (position : Nat) (enc : Encoding) (dir : Direction)
    (obj : Objective) : Build Unit := do
  requireWidth out 1
  let sink := Sink.bit position (← out.wireAt 0)
  requireOperands a b sink
  match obj with
  | .size => ripple a b sink temps enc dir
  | .depth => lookahead a b sink enc dir

end Build
end BitCircuit
