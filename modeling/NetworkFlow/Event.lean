import NetworkFlow.Algorithm
import NetworkFlow.HandleTable
import NetworkFlow.Kind
import NetworkFlow.Verdict

/-!
# What the library reports while it works

Every step worth reporting is an `Event`. An event has a level and a wording; a
caller that keeps a log prints `Event.line`.
-/

namespace NetworkFlow

/-- How urgent a report is, most urgent first. -/
inductive Level where
  | error
  | warn
  | info
  | debug
  | trace
  deriving DecidableEq, Repr

namespace Level

/-- The level in a log line. -/
def text : Level → String
  | error => "error"
  | warn => "warn"
  | info => "info"
  | debug => "debug"
  | trace => "trace"

/-- The place of a level among all, the most urgent first. -/
def rank : Level → Nat
  | error => 0
  | warn => 1
  | info => 2
  | debug => 3
  | trace => 4

/-- A report of this level is kept by a log that keeps reports down to `limit`. -/
def atLeast (l limit : Level) : Bool := l.rank ≤ limit.rank

end Level

/-- The steps that are reported. -/
inductive Event where
  /-- A list graph got an arc. -/
  | arcAdded (arc tail head : Nat)
  /-- A static graph was built. -/
  | graphBuilt (nodes arcs : Nat)
  /-- An arc's lower bound is above its upper bound. -/
  | boundsCrossed (arc : Nat) (lower upper : Int)
  /-- The supplies do not cancel out. -/
  | suppliesUnbalanced (total : Int)
  /-- More may pass through a node than the engines can count. -/
  | loadExceeded (node : Nat) (limit : Int)
  /-- The network simplex made its degenerate pivots and turned to the rule that cannot cycle. -/
  | blandAdopted (degenerate : Nat)
  /-- The network simplex stopped after this many pivots. -/
  | pivotsDone (count : Nat)
  /-- The feasibility flow carries this much of the demand. -/
  | feasibilityFlow (value demand : Int)
  /-- Cost scaling finished its phases. -/
  | phasesDone (count : Nat)
  /-- Cost scaling cancelled residual cycles. -/
  | cyclesCancelled (count : Nat)
  /-- Capacity scaling stopped after this many augmentations. -/
  | augmentationsDone (count : Nat)
  /-- A run ended with a verdict. -/
  | solved (algorithm : Algorithm) (verdict : Verdict) (nodes arcs : Nat)
  /-- A registry took an object in. -/
  | constructed (kind : ObjectKind) (handle : Handle)
  /-- A registry released an object. -/
  | destructed (kind : ObjectKind) (handle : Handle)
  /-- A run ended for a solver that was reconfigured meanwhile. -/
  | reconfigured (solver : Handle)
  /-- A call of the flat surface was refused. -/
  | refused (operation : String) (cause : Error)
  deriving DecidableEq, Repr

namespace Event

/-- The level of an event. -/
def level : Event → Level
  | arcAdded .. => .trace
  | graphBuilt .. => .debug
  | boundsCrossed .. => .debug
  | suppliesUnbalanced .. => .debug
  | loadExceeded .. => .debug
  | blandAdopted .. => .debug
  | pivotsDone .. => .trace
  | feasibilityFlow .. => .trace
  | phasesDone .. => .trace
  | cyclesCancelled .. => .trace
  | augmentationsDone .. => .trace
  | solved .. => .debug
  | constructed .. => .trace
  | destructed .. => .trace
  | reconfigured .. => .debug
  | refused .. => .warn

/-- The wording of an event. -/
def message : Event → String
  | arcAdded arc tail head => s!"arc a{arc} = n{tail} --> n{head}"
  | graphBuilt nodes arcs => s!"built static digraph with {nodes} nodes and {arcs} arcs"
  | boundsCrossed arc lower upper =>
      s!"arc a{arc}: lower bound {lower} exceeds upper bound {upper}"
  | suppliesUnbalanced total => s!"supplies sum to {total}, not zero"
  | loadExceeded node limit => s!"node n{node} may carry more than {limit} units"
  | blandAdopted degenerate =>
      s!"switching to Bland's rule after {degenerate} degenerate pivots"
  | pivotsDone count => s!"network simplex: {count} pivots"
  | feasibilityFlow value demand => s!"feasibility max flow: {value} of {demand}"
  | phasesDone count => s!"cost scaling: {count} phases"
  | cyclesCancelled count => s!"cost scaling: cancelled {count} residual cycles"
  | augmentationsDone count => s!"capacity scaling: {count} augmentations"
  | solved algorithm verdict nodes arcs =>
      s!"{algorithm.text}: {verdict.text} on {nodes} nodes, {arcs} arcs"
  | constructed kind handle => s!"constructed {kind.name} {handle.text}"
  | destructed kind handle => s!"destructed {kind.name} {handle.text}"
  | reconfigured solver => s!"solver {solver.text} was reconfigured during its run"
  | refused operation cause => s!"{operation}: {cause.message}"

/-- An event as a log line. -/
def line (e : Event) : String := e.level.text ++ " " ++ e.message

end Event

end NetworkFlow
