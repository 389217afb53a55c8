/-
# Requests for circuits

A request names an operation with its widths and what else decides the circuit. It has a
shape, under which the finished circuit is kept, and a recipe (`Request.build`) that makes
the circuit from an empty one: it registers the input and output bundles, then the
temporaries, and appends the gates.

Key definitions: `Request`, `Shape`, `Request.shape`, `Request.build`.
-/
import BitCircuit.Integer.Order
import BitCircuit.Integer.Product
import BitCircuit.Integer.Quotient
import BitCircuit.Aes.Cipher

namespace BitCircuit

/-- The bitwise operations with two operands. -/
inductive BitwiseOp where
  | and
  | or
  | xor
deriving DecidableEq, Repr

/-- The gate that a bitwise operation places at each position. -/
def BitwiseOp.kind : BitwiseOp → GateKind
  | .and => .and
  | .or => .or
  | .xor => .xor

/-- What can be asked for. The widths of the operands are `a` and `b`, that of the result
is `c`. -/
inductive Request where
  /-- The sum or difference of two operands. -/
  | addSub (dir : Direction) (enc : Encoding) (a b c : Nat) (obj : Objective)
  /-- The sum or difference of a signed operand and a constant. -/
  | addSubConst (dir : Direction) (a b : Nat) (value : Int64) (c : Nat) (obj : Objective)
  /-- The top bit of the sum of two signed operands of one width. -/
  | addMsb (a : Nat) (obj : Objective)
  /-- The top bit of a difference. -/
  | subMsb (enc : Encoding) (a b : Nat) (obj : Objective)
  /-- The product. -/
  | multiply (enc : Encoding) (a b c : Nat) (obj : Objective)
  /-- Quotient and remainder, both of width `c`. -/
  | divide (enc : Encoding) (a b c : Nat)
  /-- Whether two operands of one width are equal. -/
  | equal (a : Nat)
  /-- Whether two operands of one width differ. -/
  | notEqual (a : Nat)
  /-- Whether the first operand is less than the second. -/
  | lessThan (enc : Encoding) (a b : Nat) (obj : Objective)
  /-- Whether the first operand is at least the second. -/
  | atLeast (enc : Encoding) (a b : Nat) (obj : Objective)
  /-- One of two operands, as a third one says. -/
  | select (a : Nat)
  /-- The magnitude and the sign of a signed operand. -/
  | magnitude (a : Nat) (obj : Objective)
  /-- The signed value with a given magnitude and sign. -/
  | applySign (a : Nat) (obj : Objective)
  /-- The negation of a signed operand. -/
  | negate (a : Nat) (obj : Objective)
  /-- Whether an operand is zero. -/
  | isZero (a : Nat)
  /-- The complement of an operand. -/
  | complement (a : Nat)
  /-- A bitwise operation on signed operands. -/
  | bitwise (op : BitwiseOp) (a b c : Nat)
  /-- AES with so many rounds, under an expanded key. -/
  | aes (rounds : Nat)
deriving DecidableEq, Repr

/-- The operation of a shape. -/
inductive Operation where
  | add
  | addMsb
  | addConst (value : Int64)
  | subtract
  | subMsb
  | subtractConst (value : Int64)
  | multiply
  | divide
  | equal
  | notEqual
  | lessThan
  | atLeast
  | select
  | magnitude
  | applySign
  | negate
  | isZero
  | complement
  | bitwise (op : BitwiseOp)
  | aes
deriving DecidableEq, Repr

/-- The name of an operation in reports; a constant is part of it. -/
def Operation.text : Operation → String
  | .add => "Add"
  | .addMsb => "AddMsb"
  | .addConst v => "AddConst(" ++ toString v.toInt ++ ")"
  | .subtract => "Subtract"
  | .subMsb => "SubMsb"
  | .subtractConst v => "SubtractConst(" ++ toString v.toInt ++ ")"
  | .multiply => "Mult"
  | .divide => "Div"
  | .equal => "Eq"
  | .notEqual => "Neq"
  | .lessThan => "LessThan"
  | .atLeast => "GreaterThanEq"
  | .select => "Multiplex"
  | .magnitude => "RemoveSign"
  | .applySign => "AddSign"
  | .negate => "Negate"
  | .isZero => "IsZero"
  | .complement => "BitInvert"
  | .bitwise .and => "BitwiseAnd"
  | .bitwise .or => "BitwiseOr"
  | .bitwise .xor => "BitwiseXor"
  | .aes => "AesExpanded"

/-- What identifies a finished circuit: the operation, three widths, the objective and the
encoding. -/
structure Shape where
  operation : Operation
  a : Nat
  b : Nat
  c : Nat
  objective : Objective
  encoding : Encoding
deriving DecidableEq, Repr

/-- A shape in reports: the operation, its widths in brackets, objective and encoding. -/
def Shape.text (s : Shape) : String :=
  s.operation.text ++ "[" ++ toString s.a ++ ", " ++ toString s.b ++ ", " ++ toString s.c ++ "] "
    ++ s.objective.text ++ " " ++ s.encoding.text

/-- The width of an expanded key, which has to stay below the limit of sizes. -/
def Aes.keyWidth (rounds : Nat) : Except Error Nat :=
  if 128 * (rounds + 1) < sizeLimit then .ok (128 * (rounds + 1)) else .error (.tooManyRounds rounds)

namespace Request

/-- The shape under which the circuit of a request is kept. -/
def shape : Request → Except Error Shape
  | .addSub .addition enc a b c obj => .ok ⟨.add, a, b, c, obj, enc⟩
  | .addSub .subtraction enc a b c obj => .ok ⟨.subtract, a, b, c, obj, enc⟩
  | .addSubConst .addition a b v c obj => .ok ⟨.addConst v, a, b, c, obj, .twosComplement⟩
  | .addSubConst .subtraction a b v c obj =>
    .ok ⟨.subtractConst v, a, b, c, obj, .twosComplement⟩
  | .addMsb a obj => .ok ⟨.addMsb, a, a, 1, obj, .twosComplement⟩
  | .subMsb enc a b obj => .ok ⟨.subMsb, a, b, 1, obj, enc⟩
  | .multiply enc a b c obj => .ok ⟨.multiply, a, b, c, obj, enc⟩
  | .divide enc a b c => .ok ⟨.divide, a, b, c, .size, enc⟩
  | .equal a => .ok ⟨.equal, a, a, 1, .size, .twosComplement⟩
  | .notEqual a => .ok ⟨.notEqual, a, a, 1, .size, .twosComplement⟩
  | .lessThan enc a b obj => .ok ⟨.lessThan, a, b, 1, obj, enc⟩
  | .atLeast enc a b obj => .ok ⟨.atLeast, a, b, 1, obj, enc⟩
  | .select a => .ok ⟨.select, a, a, 1, .size, .twosComplement⟩
  | .magnitude a obj => .ok ⟨.magnitude, a, a, 1, obj, .twosComplement⟩
  | .applySign a obj => .ok ⟨.applySign, a, 1, a, obj, .twosComplement⟩
  | .negate a obj => .ok ⟨.negate, a, 0, a, obj, .twosComplement⟩
  | .isZero a => .ok ⟨.isZero, a, 0, 1, .size, .twosComplement⟩
  | .complement a => .ok ⟨.complement, a, 0, a, .size, .twosComplement⟩
  | .bitwise op a b c => .ok ⟨.bitwise op, a, b, c, .size, .twosComplement⟩
  | .aes rounds => do return ⟨.aes, 128, ← Aes.keyWidth rounds, 128, .depth, .unsigned⟩

open Build

/-- The top bit of a sum or difference at the width of the wider operand. -/
def buildMsb (dir : Direction) (enc : Encoding) (a b : Nat) (obj : Objective) : Build Unit := do
  let x ← addInput a
  let y ← addInput b
  let out ← addOutput 1
  let temps ← adderTemps obj
  sumBit x y out temps (max a b - 1) enc dir obj

/-- The circuit with two operands and one result that `op` appends the gates of. -/
def buildBinary (a b c : Nat) (op : Bundle → Bundle → Bundle → Build Unit) : Build Unit := do
  let x ← addInput a
  let y ← addInput b
  let out ← addOutput c
  op x y out

/-- Makes the circuit of a request from an empty one. -/
def build : Request → Build Unit
  | .addSub dir enc a b c obj => buildBinary a b c fun x y out => do
    let temps ← adderTemps obj
    Build.addSub dir x y out temps enc obj
  | .addSubConst dir a b v c obj => do
    let x ← addInput a
    let y ← constantBundle (BitVec.ofInt 128 v.toInt) b
    let out ← addOutput c
    let temps ← adderTemps obj
    Build.addSub dir x y out temps .twosComplement obj
  | .addMsb a obj => buildMsb .addition .twosComplement a a obj
  | .subMsb enc a b obj => buildMsb .subtraction enc a b obj
  | .multiply enc a b c obj => buildBinary a b c fun x y out => Build.multiply x y out obj enc
  | .divide enc a b c => do
    let x ← addInput a
    let y ← addInput b
    let quot ← addOutput c
    let rem ← addOutput c
    Build.divide x y quot rem enc .size
  | .equal a => buildBinary a a 1 Build.equal
  | .notEqual a => buildBinary a a 1 Build.notEqual
  | .lessThan enc a b obj => buildBinary a b 1 fun x y out => Build.lessThan x y out enc obj
  | .atLeast enc a b obj => buildBinary a b 1 fun x y out => Build.atLeast x y out enc obj
  | .select a => do
    let ifTrue ← addInput a
    let ifFalse ← addInput a
    let choice ← addInput 1
    let out ← addOutput a
    let temps ← addTemps 1
    selectTo ifTrue ifFalse choice out temps
  | .magnitude a obj => do
    let x ← addInput a
    let out ← addOutput a
    let sign ← addOutput 1
    let temps ← addTemps 2
    Build.magnitude x out temps obj
    copyTo (← x.msb) (← sign.wireAt 0)
  | .applySign a obj => do
    let x ← addInput a
    let sign ← addInput 1
    let out ← addOutput a
    let temps ← addTemps 2
    Build.applySign x sign out temps obj
  | .negate a obj => do
    let x ← addInput a
    let out ← addOutput a
    let temps ← addTemps 2
    Build.negate x out temps obj
  | .isZero a => do
    let x ← addInput a
    let out ← addOutput 1
    Build.isZero x out
  | .complement a => do
    let x ← addInput a
    let out ← addOutput a
    Build.complement x out
  | .bitwise op a b c =>
    buildBinary a b c fun x y out => Build.bitwise op.kind x y out .twosComplement
  | .aes rounds => do
    let keyWidth ← Aes.keyWidth rounds
    buildBinary 128 keyWidth 128 encrypt

/-- The finished circuit of a request, or why there is none. -/
def circuit (r : Request) : Except Error Circuit :=
  match r.build.exec .empty with
  | (.ok (), c) => .ok c
  | (.error e, _) => .error e

end Request
end BitCircuit
