/-
# The catalogue of finished circuits

A catalogue keeps every circuit it has made under its shape. A request for a shape it holds
is a hit; any other is built, kept and reported as such. A request that cannot be built
fails with its cause; then nothing is kept and nothing reported.

Key definitions: `Catalogue`, `Event`, `Catalogue.fetch`.
-/
import BitCircuit.Catalogue.Request

namespace BitCircuit

/-- The finished circuits by their shape, the latest first. -/
structure Catalogue where
  entries : List (Shape × Circuit) := []

/-- What a catalogue reports. -/
inductive Event where
  /-- A circuit was made, with so many gates and wires. -/
  | built (shape : Shape) (gates wires : Nat)
  /-- A circuit was there already. -/
  | hit (shape : Shape)

/-- An event as a line of a log: its level and what happened. -/
def Event.text : Event → String
  | .built s gates wires =>
    "DEBUG library built " ++ s.text ++ ": " ++ toString gates ++ " gates, "
      ++ toString wires ++ " wires"
  | .hit s => "TRACE library hit: " ++ s.text

/-- What a request returns: the circuit, the catalogue after it and the event. -/
structure Fetched where
  circuit : Circuit
  catalogue : Catalogue
  event : Event

namespace Catalogue

/-- The catalogue without circuits. -/
def empty : Catalogue := {}

/-- The circuit of a shape, if the catalogue holds it. -/
def find? (cat : Catalogue) (s : Shape) : Option Circuit :=
  cat.entries.lookup s

/-- Adds a circuit. -/
def insert (cat : Catalogue) (s : Shape) (c : Circuit) : Catalogue :=
  ⟨(s, c) :: cat.entries⟩

/-- A catalogue in reports: how many circuits it holds. -/
def text (cat : Catalogue) : String :=
  "Library \x7b entries: " ++ toString cat.entries.length ++ " \x7d"

/-- Returns the circuit of a request, from the catalogue if it is there. -/
def fetch (cat : Catalogue) (r : Request) : Except Error Fetched := do
  let s ← r.shape
  match cat.find? s with
  | some c => return ⟨c, cat, .hit s⟩
  | none =>
    let c ← r.circuit
    return ⟨c, cat.insert s c, .built s c.gates.size c.wires.size⟩

end Catalogue
end BitCircuit
