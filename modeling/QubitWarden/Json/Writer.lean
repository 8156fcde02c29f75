import QubitWarden.Json.Value
import QubitWarden.Tally
import QubitWarden.Text.Hex

/-!
# Common values as JSON

Words are numbers, byte strings are texts of lower-case digits, and what is absent is null. A tally
is an object with one member for each key.
-/

namespace QubitWarden.Json

def word32 (n : UInt32) : Json := .natural n.toNat

def word64 (n : UInt64) : Json := .natural n.toNat

def texts (l : List String) : Json := .array (l.map text)

def ofOption {α : Type} (write : α → Json) : Option α → Json
  | some a => write a
  | none => .null

def hex (bytes : Bytes) : Json := text (Hex.encode bytes)

def ofBlock {n : Nat} (b : Block n) : Json := hex b.toBytes

/-- The counts of a tally by the names of its keys. -/
def ofTally {κ : Type} (name : κ → String) (t : Tally κ) : Json :=
  ofMembers (t.counts.map fun (key, n) => (name key, .natural n))

end QubitWarden.Json
