/-
# The command line

The command builds one circuit and prints its statistics, after its gates if asked. It takes
one operation and options in any order:

* `-a N`, `-b N`, `-c N` (`--a-size`, …): the widths; `b` and `c` are those of `a` unless given;
* `--rounds N`: the number of rounds of AES;
* `--unsigned`, `--depth`, `--gates`: flags.

A value follows its option as the next argument, after `=`, or, for a short option, directly.
Each option may be given once, and `--` ends the options. A request for the version is met as
soon as it is read. What does not follow these rules is a usage error.

Key definitions: `CommandLine.Options`, `CommandLine.read`, `CommandLine.run`.
-/
import BitCircuit.Catalogue.Basic
import BitCircuit.Circuit.Stats

namespace BitCircuit
namespace CommandLine

/-- The operations by the names they have on the command line. -/
inductive Command where
  | add
  | addMsb
  | sub
  | subMsb
  | mult
  | div
  | eq
  | neq
  | lt
  | gteq
  | isZero
  | negate
  | removeSign
  | addSign
  | multiplex
  | and
  | or
  | xor
  | invert
  | aes
deriving DecidableEq, Repr

/-- The operation of a name. -/
def Command.ofName? : String → Option Command
  | "add" => some .add
  | "add-msb" => some .addMsb
  | "sub" => some .sub
  | "sub-msb" => some .subMsb
  | "mult" => some .mult
  | "div" => some .div
  | "eq" => some .eq
  | "neq" => some .neq
  | "lt" => some .lt
  | "gteq" => some .gteq
  | "is-zero" => some .isZero
  | "negate" => some .negate
  | "remove-sign" => some .removeSign
  | "add-sign" => some .addSign
  | "multiplex" => some .multiplex
  | "and" => some .and
  | "or" => some .or
  | "xor" => some .xor
  | "invert" => some .invert
  | "aes" => some .aes
  | _ => none

/-- The options that take a number. -/
inductive Setting where
  | a
  | b
  | c
  | rounds
deriving DecidableEq, Repr

/-- The options that take nothing. -/
inductive Flag where
  | unsigned
  | depth
  | gates
deriving DecidableEq, Repr

/-- What has been read so far. -/
structure Options where
  command : Option Command := none
  settings : List (Setting × Nat) := []
  flags : List Flag := []

namespace Options

/-- The value of a setting, if it was given. -/
def value? (o : Options) (s : Setting) : Option Nat :=
  o.settings.lookup s

/-- Whether a flag was given. -/
def has (o : Options) (f : Flag) : Bool :=
  o.flags.contains f

/-- Takes the operation, of which there is only one. -/
def setCommand? (o : Options) (name : String) : Option Options :=
  match o.command, Command.ofName? name with
  | none, some cmd => some { o with command := some cmd }
  | _, _ => none

/-- Takes a setting that was not given before. -/
def set? (o : Options) (s : Setting) (n : Nat) : Option Options :=
  if (o.value? s).isSome then none else some { o with settings := (s, n) :: o.settings }

/-- Takes a flag that was not given before. -/
def raise? (o : Options) (f : Flag) : Option Options :=
  if o.has f then none else some { o with flags := f :: o.flags }

end Options

/-- What a single argument is. -/
inductive Token where
  /-- The end of the options. -/
  | endOfOptions
  /-- A request for the version. -/
  | version
  /-- A request for help. -/
  | help
  /-- A flag. -/
  | flag (f : Flag)
  /-- A setting, with its value if the argument holds it. -/
  | setting (s : Setting) (value : Option (List Char))
  /-- Anything that does not look like an option. -/
  | plain
  /-- An option that does not exist. -/
  | unknown

/-- The option `--name`, with what follows its `=`. -/
def Token.ofLong (name : List Char) (value : Option (List Char)) : Token :=
  match String.ofList name, value with
  | "version", none => .version
  | "help", none => .help
  | "unsigned", none => .flag .unsigned
  | "depth", none => .flag .depth
  | "gates", none => .flag .gates
  | "a-size", v => .setting .a v
  | "b-size", v => .setting .b v
  | "c-size", v => .setting .c v
  | "rounds", v => .setting .rounds v
  | _, _ => .unknown

/-- The value written directly behind a short option; an `=` in between is no part of it. -/
def attached : List Char → Option (List Char)
  | [] => none
  | '=' :: v => some v
  | v => some v

/-- What an argument is. -/
def Token.ofArg (arg : List Char) : Token :=
  match arg with
  | ['-', '-'] => .endOfOptions
  | '-' :: '-' :: long =>
    match long.dropWhile (· ≠ '=') with
    | _ :: value => .ofLong (long.takeWhile (· ≠ '=')) (some value)
    | [] => .ofLong long none
  | '-' :: 'a' :: v => .setting .a (attached v)
  | '-' :: 'b' :: v => .setting .b (attached v)
  | '-' :: 'c' :: v => .setting .c (attached v)
  | '-' :: 'V' :: _ => .version
  | '-' :: 'h' :: _ => .help
  | '-' :: _ :: _ => .unknown
  | _ => .plain

/-- A number: decimal digits, after a plus sign or not, below the limit of sizes. -/
def number? (text : List Char) : Option Nat :=
  let digits :=
    match text with
    | '+' :: rest => rest
    | _ => text
  let n := digits.foldl (fun n d => 10 * n + (d.toNat - '0'.toNat)) 0
  if !digits.isEmpty && digits.all Char.isDigit && n < sizeLimit then some n else none

/-- What the arguments ask for. -/
inductive Reading where
  | options (o : Options)
  | version
  | help
  | usageError

/-- Reads what follows the end of the options: at most the operation. -/
def readPlain (o : Options) : List String → Reading
  | [] => .options o
  | arg :: rest =>
    match o.setCommand? arg with
    | some o => readPlain o rest
    | none => .usageError

/-- Takes a setting with its value as text. -/
def takeSetting? (o : Options) (s : Setting) (text : List Char) : Option Options :=
  (number? text).bind (o.set? s)

/-- Reads the arguments from the left. -/
def read (o : Options) : List String → Reading
  | [] => .options o
  | arg :: rest =>
    match Token.ofArg arg.toList with
    | .endOfOptions => readPlain o rest
    | .version => .version
    | .help => .help
    | .unknown => .usageError
    | .flag f =>
      match o.raise? f with
      | some o => read o rest
      | none => .usageError
    | .plain =>
      match o.setCommand? arg with
      | some o => read o rest
      | none => .usageError
    | .setting s (some text) =>
      match takeSetting? o s text with
      | some o => read o rest
      | none => .usageError
    | .setting s none =>
      match rest with
      | [] => .usageError
      | next :: rest =>
        match takeSetting? o s next.toList with
        | some o => read o rest
        | none => .usageError

/-- The circuit that an operation stands for. -/
def Options.request (o : Options) (cmd : Command) : Request :=
  let a := (o.value? .a).getD 32
  let b := (o.value? .b).getD a
  let c := (o.value? .c).getD a
  let obj := if o.has .depth then Objective.depth else .size
  let enc := if o.has .unsigned then Encoding.unsigned else .twosComplement
  match cmd with
  | .add => .addSub .addition enc a b c obj
  | .addMsb => .addMsb a obj
  | .sub => .addSub .subtraction enc a b c obj
  | .subMsb => .subMsb enc a b obj
  | .mult => .multiply enc a b c obj
  | .div => .divide enc a b c
  | .eq => .equal a
  | .neq => .notEqual a
  | .lt => .lessThan enc a b obj
  | .gteq => .atLeast enc a b obj
  | .isZero => .isZero a
  | .negate => .negate a obj
  | .removeSign => .magnitude a obj
  | .addSign => .applySign a obj
  | .multiplex => .select a
  | .and => .bitwise .and a b c
  | .or => .bitwise .or a b c
  | .xor => .bitwise .xor a b c
  | .invert => .complement a
  | .aes => .aes ((o.value? .rounds).getD 10)

/-- What the command prints and the code it ends with. -/
structure Outcome where
  exitCode : Nat
  stdout : String := ""
  stderr : String := ""

/-- The version, as the command prints it. -/
def versionText : String := "circuit-info 0.1\n"

/-- How the command is used. -/
def usageText : String :=
  "Usage: circuit-info [OPTIONS] <OP>\n"

/-- The report on a circuit: its gates, one on each line, if asked, and its statistics. -/
def report (o : Options) (c : Circuit) : Except Error String := do
  let gates := if o.has .gates then c.gates.toList.map (·.text ++ "\n") else []
  return String.join gates ++ (← c.stats).text

/-- The code a refused command ends with. -/
def errorCode (e : Error) : Nat :=
  if e.isFault then 101 else 1

/-- Builds the circuit of an operation and reports on it. -/
def runCommand (o : Options) (cmd : Command) : Outcome :=
  match do report o (← Catalogue.empty.fetch (o.request cmd)).circuit with
  | .ok text => { exitCode := 0, stdout := text }
  | .error e => { exitCode := errorCode e, stderr := "Error: " ++ e.message ++ "\n" }

/-- Runs the command on its arguments. -/
def run (args : List String) : Outcome :=
  match read {} args with
  | .version => { exitCode := 0, stdout := versionText }
  | .help => { exitCode := 0, stdout := usageText }
  | .usageError => { exitCode := 2, stderr := usageText }
  | .options o =>
    match o.command with
    | some cmd => runCommand o cmd
    | none => { exitCode := 2, stderr := usageText }

end CommandLine
end BitCircuit
