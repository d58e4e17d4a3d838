/-!
# Why a call is refused

Every refusal of the library has one of nine causes. The cause is a value, its
wording is `Error.message`, and its identifier, for callers that print a cause
instead of its wording, is `Error.name`.
-/

namespace NetworkFlow

/-- The causes for which a call is refused. -/
inductive Error where
  | foreignIdentity
  | alreadyBuilt
  | indexOutOfRange
  | unconfigured
  | notSolved
  | invalidHandle
  | kindMismatch
  | arithmeticOverflow
  | algorithmSpecific (text : String)
  deriving DecidableEq, Repr

namespace Error

/-- The wording of a cause. -/
def message : Error → String
  | foreignIdentity => "Identity or map belongs to a different graph"
  | alreadyBuilt => "Static graph has already been built"
  | indexOutOfRange => "Index is out of range for this graph"
  | unconfigured => "Solver refers to a map or graph that is no longer alive"
  | notSolved => "No optimal solution available, `run()` has not returned `Optimal`"
  | invalidHandle => "Handle does not refer to a live object"
  | kindMismatch => "Handle refers to an object of a different kind or value type"
  | arithmeticOverflow => "Arithmetic overflow while preparing or solving the problem"
  | algorithmSpecific text => "Min-cost flow algorithm specific error: " ++ text

/-- The identifier of a cause. -/
def name : Error → String
  | foreignIdentity => "ForeignIdentity"
  | alreadyBuilt => "AlreadyBuilt"
  | indexOutOfRange => "IndexOutOfRange"
  | unconfigured => "Unconfigured"
  | notSolved => "NotSolved"
  | invalidHandle => "InvalidHandle"
  | kindMismatch => "KindMismatch"
  | arithmeticOverflow => "ArithmeticOverflow"
  | algorithmSpecific _ => "AlgoSpecific"

end Error

end NetworkFlow
