import NetworkFlow.Algorithm
import NetworkFlow.Decimal.Reading
import NetworkFlow.Event

/-!
# Arguments of the command line

Every option has a long name and takes a value, either as the next argument or behind
an equals sign, and may be given once. `-h` and `--help` ask for help; of a request
for help and a mistake, the first one counts. A next argument that begins with a dash
is not taken as a value, unless it is only a dash.
-/

namespace NetworkFlow.CommandLine

/-- The kind of graph that a problem is solved on. -/
inductive GraphChoice where
  | list
  | static
  deriving DecidableEq, Repr

/-- What the program is asked to do. -/
structure Options where
  arcs : String
  supplies : Option String
  nodes : Option Nat
  algorithm : Algorithm
  pivotRule : PivotRule
  alpha : Nat
  factor : Nat
  graph : GraphChoice
  output : Option String
  logLevel : Level
  deriving DecidableEq, Repr

/-- Why arguments are not followed. -/
inductive Refusal where
  /-- Help is asked for. -/
  | help
  /-- The arguments do not fit. -/
  | usage
  deriving DecidableEq, Repr

/-- The options read so far. -/
structure Draft where
  arcs : Option String := none
  supplies : Option String := none
  nodes : Option Nat := none
  algorithm : Option Algorithm := none
  pivotRule : Option PivotRule := none
  alpha : Option Nat := none
  factor : Option Nat := none
  graph : Option GraphChoice := none
  output : Option String := none
  logLevel : Option Level := none

/-- A path; it is not empty. -/
def path? (value : String) : Option String :=
  if value.isEmpty then none else some value

/-- A number of the machine without sign. -/
def number? (value : String) : Option Nat :=
  (Decimal.unsigned? 10 value.toList).filter (· < unsignedBound)

/-- The value with a given name in a list. -/
def choice? {α : Type} (choices : List (String × α)) (value : String) : Option α :=
  choices.lookup value

/-- The names of the algorithms. -/
def algorithms : List (String × Algorithm) :=
  [("network-simplex", .networkSimplex), ("cost-scaling", .costScaling),
    ("capacity-scaling", .capacityScaling)]

/-- The names of the pivot rules. -/
def pivotRules : List (String × PivotRule) :=
  [("first-eligible", .firstEligible), ("best-eligible", .bestEligible),
    ("block-search", .blockSearch), ("bland", .bland)]

/-- The names of the kinds of graphs. -/
def graphs : List (String × GraphChoice) := [("list", .list), ("static", .static)]

/-- The names of the levels. -/
def levels : List (String × Level) :=
  [("error", .error), ("warn", .warn), ("info", .info), ("debug", .debug), ("trace", .trace)]

/-- Fills a place that is still free with a value that fits. -/
def once {α : Type} (old new : Option α) : Option (Option α) :=
  match old with
  | some _ => none
  | none => new.map some

/-- Gives an option a value, unless there is no such option, it already has a value
or the value does not fit. -/
def Draft.set? (d : Draft) (name value : String) : Option Draft :=
  match name with
  | "arcs" => (once d.arcs (path? value)).map ({ d with arcs := · })
  | "supplies" => (once d.supplies (path? value)).map ({ d with supplies := · })
  | "nodes" => (once d.nodes (number? value)).map ({ d with nodes := · })
  | "algorithm" => (once d.algorithm (choice? algorithms value)).map ({ d with algorithm := · })
  | "pivot-rule" => (once d.pivotRule (choice? pivotRules value)).map ({ d with pivotRule := · })
  | "alpha" => (once d.alpha (number? value)).map ({ d with alpha := · })
  | "factor" => (once d.factor (number? value)).map ({ d with factor := · })
  | "graph" => (once d.graph (choice? graphs value)).map ({ d with graph := · })
  | "output" => (once d.output (path? value)).map ({ d with output := · })
  | "log-level" => (once d.logLevel (choice? levels value)).map ({ d with logLevel := · })
  | _ => none

/-- Gives an option a value or refuses. -/
def Draft.set (d : Draft) (name value : String) : Except Refusal Draft :=
  match d.set? name value with
  | some d => .ok d
  | none => .error .usage

/-- How an argument reads by itself. -/
inductive ArgumentForm where
  /-- The name of an option, which takes the next argument. -/
  | name (name : String)
  /-- An option with its value. -/
  | assignment (name value : String)
  | help
  /-- The mark after which there are no options. -/
  | endOfOptions
  | other
  deriving DecidableEq, Repr

/-- Reads an argument by itself. -/
def ArgumentForm.ofArgument (arg : String) : ArgumentForm :=
  match arg.toList with
  | ['-', '-'] => .endOfOptions
  | '-' :: '-' :: rest =>
      let name := String.ofList (rest.takeWhile (· ≠ '='))
      match rest.dropWhile (· ≠ '=') with
      | [] => if name = "help" then .help else .name name
      | _ :: value => .assignment name (String.ofList value)
  | '-' :: 'h' :: _ => .help
  | _ => .other

/-- An argument can be the value of the option before it. -/
def isValue (arg : String) : Bool := arg = "-" || !arg.startsWith "-"

/-- Reads arguments one after the other. -/
def readArguments : Draft → List String → Except Refusal Draft
  | d, [] => .ok d
  | d, arg :: rest =>
      match ArgumentForm.ofArgument arg with
      | .help => .error .help
      | .other => .error .usage
      | .endOfOptions => if rest.isEmpty then .ok d else .error .usage
      | .assignment name value => (d.set name value).bind (readArguments · rest)
      | .name name =>
          match rest with
          | [] => .error .usage
          | value :: rest =>
              if isValue value then (d.set name value).bind (readArguments · rest)
              else .error .usage

/-- The options that arguments ask for; the arcs must be named. -/
def Options.ofArguments (args : List String) : Except Refusal Options := do
  let d ← readArguments {} args
  let some arcs := d.arcs | throw .usage
  return {
    arcs := arcs
    supplies := d.supplies
    nodes := d.nodes
    algorithm := d.algorithm.getD .standard
    pivotRule := d.pivotRule.getD .standard
    alpha := d.alpha.getD Method.standardAlpha
    factor := d.factor.getD Method.standardFactor
    graph := d.graph.getD .static
    output := d.output
    logLevel := d.logLevel.getD .info }

/-- The method that options ask for. -/
def Options.method (o : Options) : Method :=
  match o.algorithm with
  | .networkSimplex => .networkSimplex o.pivotRule
  | .costScaling => .costScaling o.alpha
  | .capacityScaling => .capacityScaling o.factor

/-- What is printed when help is asked for. -/
def helpText : String :=
  "Solve a min-cost flow problem given as CSV\n\n" ++
  "Usage: mcflow-cli [OPTIONS] --arcs <ARCS>\n\n" ++
  "Options:\n" ++
  "      --arcs <ARCS>              " ++
  "Arcs CSV with header `tail,head,lower,upper,cost` (empty upper = uncapacitated)\n" ++
  "      --supplies <SUPPLIES>      Supplies CSV with header `node,supply`\n" ++
  "      --nodes <NODES>            " ++
  "Number of nodes (default: one more than the largest index seen)\n" ++
  "      --algorithm <ALGORITHM>    [default: network-simplex] " ++
  "[possible values: network-simplex, cost-scaling, capacity-scaling]\n" ++
  "      --pivot-rule <PIVOT_RULE>  [default: block-search] " ++
  "[possible values: first-eligible, best-eligible, block-search, bland]\n" ++
  "      --alpha <ALPHA>            Cost scaling epsilon divisor [default: 16]\n" ++
  "      --factor <FACTOR>          Capacity scaling delta divisor [default: 4]\n" ++
  "      --graph <GRAPH>            [default: static] [possible values: list, static]\n" ++
  "      --output <OUTPUT>          " ++
  "Output CSV with header `arc,tail,head,flow` (default: stdout)\n" ++
  "      --log-level <LOG_LEVEL>    [default: info] " ++
  "[possible values: error, warn, info, debug, trace]\n" ++
  "  -h, --help                     Print help\n"

end NetworkFlow.CommandLine
