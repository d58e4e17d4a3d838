/-!
# Keys of nodes and arcs

Every graph has an identity. A node or arc is named by a `Key`, which carries the
identity of its graph beside its number, so that a key of another graph is
recognised and not taken for the element with the same number.
-/

namespace NetworkFlow

/-- The identity of a graph. -/
structure GraphId where
  number : Nat
  deriving DecidableEq, Repr

/-- The identity given out after this one. -/
def GraphId.next (id : GraphId) : GraphId := ⟨id.number + 1⟩

/-- What a key can name. -/
inductive KeyKind where
  | node
  | arc
  deriving DecidableEq, Repr

/-- A node or an arc of a graph. -/
structure Key (kind : KeyKind) where
  graph : GraphId
  index : Nat
  deriving DecidableEq, Repr

/-- A node of a graph. -/
abbrev Node := Key .node

/-- An arc of a graph. -/
abbrev Arc := Key .arc

namespace KeyKind

/-- The letter with which keys of a kind are written. -/
def letter : KeyKind → String
  | node => "n"
  | arc => "a"

end KeyKind

/-- A key as text, such as `n3` or `a0`. -/
def Key.text {kind : KeyKind} (key : Key kind) : String :=
  kind.letter ++ toString key.index

/-- The number that a signed number names. A negative number names nothing, and is
read as a number beyond every graph. -/
def indexOfSigned (i : Int) : Nat := if i < 0 then 18446744073709551615 else i.toNat

end NetworkFlow
