import NetworkFlow.CommandLine.Arguments
import NetworkFlow.CommandLine.Rows
import NetworkFlow.Decimal.Shortest
import NetworkFlow.Graph.ListDigraph
import NetworkFlow.Graph.StaticDigraph
import NetworkFlow.Solver

/-!
# The command line program

`run` is the program as a function of its arguments and of the files around it. It
reads arcs and supplies, solves the problem they describe, and writes the flow of
every arc, to the standard output or to a file. Everything it leaves behind is in
its `Ending`.

Supplies of the same node are added up in 64-bit arithmetic, and a sum that does
not fit ends the program at once.
-/

namespace NetworkFlow.CommandLine

/-- Why a file is of no use. -/
inductive FileError where
  /-- Nothing can be opened or created under its path. -/
  | notOpened
  /-- What was opened cannot be read. -/
  | notRead
  deriving DecidableEq, Repr

/-- The files around the program. -/
structure Files where
  /-- The content of a file. -/
  read : String → Except FileError String
  /-- A file can be created under a path. -/
  canCreate : String → Bool

/-- Why the program fails. -/
inductive Failure where
  | usage
  | file (cause : FileError)
  | rows (cause : RowError)
  /-- There are too few nodes for the numbers that occur. -/
  | tooFewNodes (nodes largest : Nat)
  /-- The library refuses the problem. -/
  | refused (cause : Error)
  /-- The problem has no optimal flow. -/
  | verdict (v : Verdict)
  /-- The program is stopped before it has an answer. -/
  | interrupted (why : Interruption)
  deriving DecidableEq, Repr

/-- The wording of a failure. -/
def Failure.message : Failure → String
  | usage => "Usage"
  | file .notOpened => "Io"
  | file .notRead => "Csv Io"
  | rows .unequalLengths => "Csv UnequalLengths"
  | rows .unreadable => "Csv Deserialize"
  | tooFewNodes nodes largest =>
      s!"--nodes {nodes} is below the largest node index {largest}"
  | refused cause => cause.name
  | verdict v => "problem is " ++ v.text
  | interrupted .outOfFuel => "OutOfFuel"
  | interrupted .overflow => "Panic"

/-- What the program logs. -/
inductive Remark where
  | loaded (nodes arcs supplies : Nat)
  | solved (algorithm : Algorithm) (v : Verdict)
  | total (cost : Float)
  | event (e : Event)

namespace Remark

/-- The level of a remark. -/
def level : Remark → Level
  | event e => e.level
  | _ => .info

/-- The wording of a remark. -/
def message : Remark → String
  | loaded nodes arcs supplies => s!"{nodes} nodes, {arcs} arcs, {supplies} supplies"
  | solved algorithm v => algorithm.text ++ ": " ++ v.text
  | total cost => "total cost = " ++ Decimal.text cost
  | event e => e.message

/-- A remark as a log line. -/
def line (r : Remark) : String := "[" ++ r.level.text.toUpper ++ "] " ++ r.message

end Remark

/-- How far the program came: what it logged, and the text to write or why there is none. -/
structure Report where
  remarks : List Remark
  outcome : Except Failure String

/-- The problem that the files describe. -/
structure Problem where
  nodes : Nat
  arcs : List ArcRow
  supplies : List SupplyRow

/-- The rows of a file. -/
def load {α : Type} (files : Files) (ofRecord : List String → List String → Except RowError α)
    (path : String) : Except Failure (List α) :=
  match files.read path with
  | .error cause => .error (.file cause)
  | .ok text => (rows ofRecord text).mapError .rows

namespace Problem

/-- The numbers of the nodes that occur. -/
def indices (arcs : List ArcRow) (supplies : List SupplyRow) : List Nat :=
  arcs.flatMap (fun a => [a.tail, a.head]) ++ supplies.map (·.node)

/-- One more than the largest number that occurs, in unsigned 64-bit arithmetic. -/
def seen (arcs : List ArcRow) (supplies : List SupplyRow) : Except Interruption Nat :=
  match (indices arcs supplies).max? with
  | none => .ok 0
  | some largest => if largest + 1 < unsignedBound then .ok (largest + 1) else .error .overflow

/-- The problem that the files of some options describe. -/
def load (files : Files) (o : Options) : Except Failure Problem := do
  let arcs ← CommandLine.load files ArcRow.ofRecord o.arcs
  let supplies ← match o.supplies with
    | none => pure []
    | some path => CommandLine.load files SupplyRow.ofRecord path
  let seen ← (seen arcs supplies).mapError Failure.interrupted
  let nodes := o.nodes.getD seen
  if nodes < seen then throw (.tooFewNodes nodes (seen - 1))
  return { nodes, arcs, supplies }

/-- The end points of the arcs. -/
def ends (p : Problem) : Array Ends := (p.arcs.map fun a => ⟨a.tail, a.head⟩).toArray

/-- The graph of the problem as one that grows. -/
def listDigraph (p : Problem) : Logged Digraph := do
  let g := p.nodes.fold (fun _ _ g => (ListDigraph.addNode g).1) (ListDigraph.empty ⟨1⟩)
  let g ← p.arcs.foldlM
    (fun (g : ListDigraph) a => do
      let (g, _) ← g.addArc (← g.node a.tail) (← g.node a.head)
      return g)
    g
  return g.toDigraph

/-- The graph of the problem. -/
def graph (p : Problem) : GraphChoice → Logged Digraph
  | .static => do
      let g ← StaticDigraph.ofEnds ⟨1⟩ p.nodes p.ends
      return g.toDigraph
  | .list => p.listDigraph

/-- A map over the arcs with the values of the rows. -/
def arcMap {α : Type} (p : Problem) (g : Digraph) (fill : α) (value : ArcRow → α) :
    Except Error (ArcMap α) :=
  ((g.keys .arc).zip p.arcs).foldlM (fun map (arc, row) => map.set arc (value row))
    (KeyedMap.ofGraph g .arc fill)

/-- The sum of two amounts, which must be an amount. -/
def addSupply (x : Word .bits64) (supply : Int) : Except Interruption (Word .bits64) :=
  match Word.ofInt? (x.val + supply) with
  | some sum => .ok sum
  | none => .error .overflow

/-- The supplies of the nodes: the rows of a node added up. -/
def supplyMap (p : Problem) (g : Digraph) : Logged (NodeMap (Word .bits64)) :=
  p.supplies.foldlM
    (fun map row => do
      let node ← g.node row.node
      map.set node (← addSupply (← map.get node) row.supply))
    (KeyedMap.ofGraph g .node default)

/-- The configuration that the rows ask for. -/
def configuration (p : Problem) (g : Digraph) : Logged (Configuration .bits64 Float) := do
  let lower ← p.arcMap g default fun row => .wrap (row.lower.getD 0)
  let upper ← p.arcMap g default fun row => .wrap (row.upper.getD Amount.largest)
  let cost ← p.arcMap g 0.0 (·.cost)
  let supply ← p.supplyMap g
  let c : Configuration .bits64 Float := { graph := g }
  let c ← c.setLower lower
  let c ← c.setUpper upper
  let c ← c.setCost cost
  c.setSupply supply

end Problem

/-- What a run of the solver comes to. -/
structure Answer where
  verdict : Verdict
  flows : List (Word .bits64)
  total : Float

/-- Solves the configured problem and asks for flows and total cost. -/
def solve (fuel : Nat) (method : Method) (c : Configuration .bits64 Float) : Logged Answer := do
  let start : Solver .bits64 Float := { config := c, method }
  let (run, s) := (Solver.run fuel).run start
  let verdict ← run
  if verdict = .optimal then
    let map ← s.flowMap
    let flows ← ((c.graph.keys .arc).mapM map.get : Except Error _)
    let total ← s.totalCost
    return { verdict, flows, total }
  return { verdict, flows := [], total := 0.0 }

/-- The flow of every arc as text. -/
def render (g : Digraph) (flows : List (Word .bits64)) : String :=
  let lines := (g.ends.toList.zip flows).zipIdx.map fun ((e, flow), arc) =>
    Csv.line [toString arc, toString e.tail, toString e.head, toString flow.val]
  Csv.line ["arc", "tail", "head", "flow"] ++ String.join lines

/-- The failure that a fault of the library is. -/
def Failure.ofFault : Fault → Failure
  | .refused cause => .refused cause
  | .interrupted why => .interrupted why

/-- A computation of the library as a part of a report. -/
def Report.andThen {α : Type} (remarks : List Remark) (x : Logged α)
    (f : List Remark → α → Report) : Report :=
  let remarks := remarks ++ x.events.map .event
  match x.outcome with
  | .ok a => f remarks a
  | .error fault => ⟨remarks, .error (.ofFault fault)⟩

/-- Solves a problem as options ask for; the result is the text to write. -/
def runProblem (fuel : Nat) (files : Files) (o : Options) (p : Problem) : Report :=
  let remarks : List Remark := [.loaded p.nodes p.arcs.length p.supplies.length]
  .andThen remarks (p.graph o.graph) fun remarks g =>
    .andThen remarks (p.configuration g >>= solve fuel o.method)
      fun remarks answer =>
        let remarks := remarks ++ [.solved o.algorithm answer.verdict]
        if answer.verdict ≠ .optimal then ⟨remarks, .error (.verdict answer.verdict)⟩
        else
          let remarks := remarks ++ [.total answer.total]
          if (o.output.map files.canCreate).getD true then
            ⟨remarks, .ok (render g answer.flows)⟩
          else ⟨remarks, .error (.file .notOpened)⟩

/-- Runs the program for options that were read; remarks below the level asked for
are dropped. -/
def runOptions (fuel : Nat) (files : Files) (o : Options) : Report :=
  match Problem.load files o with
  | .error failure => ⟨[], .error failure⟩
  | .ok p =>
      let report := runProblem fuel files o p
      { report with remarks := report.remarks.filter fun r => r.level.atLeast o.logLevel }

/-- What the program leaves behind. -/
structure Ending where
  status : Nat
  /-- The text on the standard output. -/
  printed : String := ""
  /-- The file that is written, with its path and its content. -/
  written : Option (String × String) := none
  remarks : List Remark := []
  failure : Option Failure := none

/-- The exit status that a failure leads to. -/
def Failure.status : Failure → Nat
  | usage => 2
  | interrupted .overflow => 101
  | _ => 1

/-- Runs the program. Refused arguments end it with status 2, an overflow with status
101, every other failure with status 1. -/
def run (fuel : Nat) (files : Files) (args : List String) : Ending :=
  match Options.ofArguments args with
  | .error .help => { status := 0, printed := helpText }
  | .error .usage => { status := Failure.usage.status, failure := some .usage }
  | .ok o =>
      let report := runOptions fuel files o
      match report.outcome, o.output with
      | .error failure, _ =>
          { status := failure.status, remarks := report.remarks, failure := some failure }
      | .ok text, none => { status := 0, printed := text, remarks := report.remarks }
      | .ok text, some path =>
          { status := 0, written := some (path, text), remarks := report.remarks }

end NetworkFlow.CommandLine
