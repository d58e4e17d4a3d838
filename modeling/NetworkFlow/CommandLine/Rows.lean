import NetworkFlow.Csv
import NetworkFlow.Decimal.Reading

/-!
# The rows of the input files

The arcs file has a row per arc: tail, head, lower bound, upper bound and cost; the
bounds may be empty or absent. The supplies file has a row per supply: node and
amount. Columns are found by their names, and other columns are not looked at.
-/

namespace NetworkFlow.CommandLine

/-- An arc of the arcs file. -/
structure ArcRow where
  tail : Nat
  head : Nat
  lower : Option Int
  upper : Option Int
  cost : Float

/-- A supply of the supplies file. -/
structure SupplyRow where
  node : Nat
  supply : Int
  deriving DecidableEq, Repr

/-- Why a file cannot be read as rows. -/
inductive RowError where
  /-- A record has more or fewer fields than the header. -/
  | unequalLengths
  /-- A field is missing or does not fit its column. -/
  | unreadable
  deriving DecidableEq, Repr

/-- What is wrong with no value. -/
def readable {α : Type} : Option α → Except RowError α
  | some a => .ok a
  | none => .error .unreadable

/-- The field of a record in a column, if there is such a column. -/
def field (header record : List String) (name : String) : Except RowError (Option String) :=
  (Csv.column? header record name).mapError fun _ => .unreadable

/-- The value of a field that must be there. -/
def required {α : Type} (header record : List String) (name : String)
    (read : String → Option α) : Except RowError α := do
  let text ← readable (← field header record name)
  readable (read text)

/-- The value of a field that may be absent or empty. -/
def optional {α : Type} (header record : List String) (name : String)
    (read : String → Option α) : Except RowError (Option α) := do
  match ← field header record name with
  | none => return none
  | some text => if text.isEmpty then return none else return some (← readable (read text))

/-- An arc from a record. -/
def ArcRow.ofRecord (header record : List String) : Except RowError ArcRow := do
  let tail ← required header record "tail" Decimal.count?
  let head ← required header record "head" Decimal.count?
  let lower ← optional header record "lower" Decimal.amount?
  let upper ← optional header record "upper" Decimal.amount?
  let cost ← required header record "cost" Decimal.double?
  return { tail, head, lower, upper, cost }

/-- A supply from a record. -/
def SupplyRow.ofRecord (header record : List String) : Except RowError SupplyRow := do
  let node ← required header record "node" Decimal.count?
  let supply ← required header record "supply" Decimal.amount?
  return { node, supply }

/-- The rows of a text; the first record that is wrong decides how it is refused. -/
def rows {α : Type} (ofRecord : List String → List String → Except RowError α)
    (text : String) : Except RowError (List α) :=
  match Csv.records text with
  | [] => .ok []
  | header :: records =>
      records.mapM fun record =>
        if record.length = header.length then ofRecord header record
        else .error .unequalLengths

end NetworkFlow.CommandLine
