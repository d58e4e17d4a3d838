/-!
# Comma separated records

A text is cut into records, and a record into fields. Fields end at commas, records
at line ends of any kind; lines without any character are skipped. A field that
begins with a quotation mark runs to the next single quotation mark and may hold
commas and line ends; a doubled quotation mark stands for one. What follows the
closing mark belongs to the field as it is. A byte order mark at the very beginning
is skipped.

The first record names the columns. `column?` finds a field of a record by the
name of its column.
-/

namespace NetworkFlow.Csv

/-- Where the reader stands. -/
inductive Place where
  /-- Before a record. -/
  | betweenRecords
  /-- Before a field. -/
  | fieldStart
  /-- In a field without quotation marks, or behind the closing one. -/
  | plain
  /-- Between quotation marks. -/
  | quoted
  /-- Behind a quotation mark that closes the field or is the first of two. -/
  | quoteSeen
  deriving DecidableEq, Repr

/-- A reader in the middle of a text; records, fields and characters are kept last first. -/
structure Reader where
  place : Place := .betweenRecords
  field : List Char := []
  fields : List String := []
  records : List (List String) := []

namespace Reader

/-- Ends the current field. -/
def endField (r : Reader) : Reader :=
  { r with
    place := .fieldStart
    field := []
    fields := String.ofList r.field.reverse :: r.fields }

/-- Ends the current field and its record. -/
def endRecord (r : Reader) : Reader :=
  let r := r.endField
  { r with
    place := .betweenRecords
    fields := []
    records := r.fields.reverse :: r.records }

/-- Puts a character into the current field. -/
def keep (r : Reader) (place : Place) (c : Char) : Reader :=
  { r with place := place, field := c :: r.field }

/-- A line end. -/
def isLineEnd (c : Char) : Bool := c = '\n' || c = '\r'

/-- Reads a character outside quotation marks, where the next place for a character
that is kept is `plain`. -/
def readPlain (r : Reader) (c : Char) : Reader :=
  if c = ',' then r.endField
  else if isLineEnd c then r.endRecord
  else r.keep .plain c

/-- Reads a character at the start of a field. -/
def readStart (r : Reader) (c : Char) : Reader :=
  if c = '"' then { r with place := .quoted } else r.readPlain c

/-- Reads one character. -/
def read (r : Reader) (c : Char) : Reader :=
  match r.place with
  | .betweenRecords => if isLineEnd c then r else r.readStart c
  | .fieldStart => r.readStart c
  | .plain => r.readPlain c
  | .quoted => if c = '"' then { r with place := .quoteSeen } else r.keep .quoted c
  | .quoteSeen => if c = '"' then r.keep .quoted c else r.readPlain c

/-- Ends the text. -/
def finish (r : Reader) : List (List String) :=
  match r.place with
  | .betweenRecords => r.records.reverse
  | _ => r.endRecord.records.reverse

end Reader

/-- A text without the byte order mark. -/
def skipMark : List Char → List Char
  | '\uFEFF' :: rest => rest
  | cs => cs

/-- The records of a text. -/
def records (text : String) : List (List String) :=
  ((skipMark text.toList).foldl Reader.read {}).finish

/-- A field of a record by the name of its column: an error if two columns have the
name, nothing if none has. -/
def column? (header record : List String) (name : String) : Except Unit (Option String) :=
  match (header.zip record).filter (·.1 = name) with
  | [] => .ok none
  | [(_, field)] => .ok (some field)
  | _ => .error ()

/-- A record as text; its fields hold no commas, quotation marks or line ends. -/
def line (fields : List String) : String := ",".intercalate fields ++ "\n"

end NetworkFlow.Csv
