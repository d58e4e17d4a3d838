import NetworkFlow.CommandLine.Run

/-!
# Trees of files

The files around the program as a value. A directory holds entries by name, and a
path leads from one directory to another entry: its components are separated by
slashes, an empty component or a dot stays where it is, two dots lead to the directory
above, and every other component is the name of an entry. A path that begins with a
slash starts at the root. Nothing leads on from an entry that is no directory, so a
file with a slash behind its name is not found.

* `Location.find?` follows a path.
* `Location.files` are the files as the program sees them.
* `Location.surroundings` puts plain files into a directory with the usual devices
  around it.
-/

namespace NetworkFlow.CommandLine

/-- What a path can lead to. -/
inductive FileTree where
  | file (content : String)
  /-- A device without content that takes every text and keeps none. -/
  | sink
  /-- A device without content whose text appears on the standard output. -/
  | console
  /-- A device without content that takes no text. -/
  | full
  | directory (entries : List (String × FileTree))

/-- A place in a tree. -/
structure Location where
  node : FileTree
  /-- The directories that lead to the place, the nearest one first. -/
  above : List FileTree := []

namespace Location

/-- The most bytes of a path. -/
def pathLimit : Nat := 4095

/-- The most bytes of a name. -/
def nameLimit : Nat := 255

/-- The top of the tree. -/
def root (l : Location) : Location := ⟨l.above.getLastD l.node, []⟩

/-- The place that one component of a path leads to. -/
def step? (l : Location) (component : String) : Option Location :=
  match l.node with
  | .directory entries =>
    if component = "" || component = "." then some l
    else if component = ".." then
      match l.above with
      | [] => some l
      | parent :: above => some ⟨parent, above⟩
    else (entries.lookup component).map fun node => ⟨node, l.node :: l.above⟩
  | _ => none

/-- The place that components of a path lead to, one after the other. -/
def walk? (l : Location) (components : List String) : Option Location :=
  components.foldlM step? l

/-- The place where a path starts, and its components. -/
def route? (l : Location) (path : String) : Option (Location × List String) :=
  if path = "" || pathLimit < path.utf8ByteSize then none
  else some (if path.startsWith "/" then l.root else l, path.splitOn "/")

/-- The place that a path leads to. -/
def find? (l : Location) (path : String) : Option Location := do
  let (start, components) ← l.route? path
  start.walk? components

/-- The content of the file that a path leads to. A directory can be opened, but has
no content. -/
def read (l : Location) (path : String) : Except FileError String :=
  match l.find? path with
  | none => .error .notOpened
  | some ⟨.directory _, _⟩ => .error .notRead
  | some ⟨.file content, _⟩ => .ok content
  | some _ => .ok ""

/-- All components of a path but the last lead to a directory, and the last is short
enough for a name. -/
def namesEntry (l : Location) (path : String) : Bool :=
  match l.route? path with
  | none => false
  | some (start, components) =>
    match start.walk? components.dropLast, components.getLast? with
    | some ⟨.directory _, _⟩, some name => name.utf8ByteSize ≤ nameLimit
    | _, _ => false

/-- A file can be created under a path, in the place of one that is there. -/
def canCreate (l : Location) (path : String) : Bool :=
  match l.find? path with
  | none => l.namesEntry path
  | some ⟨.directory _, _⟩ => false
  | some ⟨.full, _⟩ => false
  | some _ => true

/-- The files as the program sees them from a place. -/
def files (l : Location) : Files where
  read := l.read
  canCreate := l.canCreate

/-- The text that an ending leaves on the standard output. -/
def printed (l : Location) (e : Ending) : String :=
  match e.written with
  | none => e.printed
  | some (path, text) =>
    match l.find? path with
    | some ⟨.console, _⟩ => e.printed ++ text
    | _ => e.printed

/-- A directory of plain files, two levels below a root that also has the devices. -/
def surroundings (plain : List (String × String)) : Location :=
  let devices : FileTree := .directory
    [("null", .sink), ("stdin", .sink), ("stdout", .console), ("stderr", .sink),
      ("full", .full)]
  let here : FileTree := .directory (plain.map fun (name, content) => (name, .file content))
  let temporary : FileTree := .directory [("work", here)]
  ⟨here, [temporary, .directory [("dev", devices), ("tmp", temporary)]]⟩

end Location

end NetworkFlow.CommandLine
