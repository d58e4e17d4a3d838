import NetworkFlow.CommandLine.Run

/-!
# The program at a terminal

Reads the files that the arguments name, runs the program on them and does what its
ending says. Files are read before the run and written after it.
-/

namespace NetworkFlow.Main

open CommandLine

/-- The text behind an open file. -/
def textOf (handle : IO.FS.Handle) : IO (Except FileError String) := do
  try
    return .ok (← handle.readToEnd)
  catch _ =>
    return .error .notRead

/-- The content of a file, or why there is none. -/
def contents (path : String) : IO (Except FileError String) := do
  try
    textOf (← IO.FS.Handle.mk path .read)
  catch _ =>
    return .error .notOpened

/-- The files that arguments name. -/
def filesOf (args : List String) : IO Files := do
  let paths := match Options.ofArguments args with
    | .ok o => o.arcs :: o.supplies.toList
    | .error _ => []
  let table ← paths.mapM fun path => return (path, ← contents path)
  return {
    read := fun path => (table.lookup path).getD (.error .notOpened)
    canCreate := fun _ => true }

/-- Writes the file of an ending; the result is the exit status. -/
def writeFile (e : Ending) : IO UInt32 := do
  match e.written with
  | none => return UInt32.ofNat e.status
  | some (path, text) =>
      try
        IO.FS.writeFile path text
        return UInt32.ofNat e.status
      catch _ =>
        IO.eprintln ("Error: " ++ (Failure.file .notOpened).message)
        return 1

end NetworkFlow.Main

open NetworkFlow in
/-- Solves the minimum cost flow problem that the arguments name. -/
def main (args : List String) : IO UInt32 := do
  let e := CommandLine.run ampleFuel (← Main.filesOf args) args
  for r in e.remarks do
    IO.eprintln r.line
  if let some failure := e.failure then
    IO.eprintln ("Error: " ++ failure.message)
  IO.print e.printed
  Main.writeFile e
