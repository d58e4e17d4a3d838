import NetworkFlow.Algorithm
import NetworkFlow.Amount
import NetworkFlow.BellmanFord
import NetworkFlow.CapacityScaling.Dijkstra
import NetworkFlow.CapacityScaling.Search
import NetworkFlow.CapacityScaling.Solve
import NetworkFlow.CommandLine.Arguments
import NetworkFlow.CommandLine.FileTree
import NetworkFlow.CommandLine.Rows
import NetworkFlow.CommandLine.Run
import NetworkFlow.Configuration
import NetworkFlow.CostScaling.Refine
import NetworkFlow.CostScaling.Solve
import NetworkFlow.Csv
import NetworkFlow.Decimal.Binary64
import NetworkFlow.Decimal.Power
import NetworkFlow.Decimal.Reading
import NetworkFlow.Decimal.Shortest
import NetworkFlow.Error
import NetworkFlow.Event
import NetworkFlow.Flat.Operation
import NetworkFlow.Flat.Perform
import NetworkFlow.Graph.Compressed
import NetworkFlow.Graph.Digraph
import NetworkFlow.Graph.Key
import NetworkFlow.Graph.ListDigraph
import NetworkFlow.Graph.StaticDigraph
import NetworkFlow.HandleTable
import NetworkFlow.KeyedMap
import NetworkFlow.Kind
import NetworkFlow.Logged
import NetworkFlow.Loop
import NetworkFlow.Main
import NetworkFlow.MaxFlow
import NetworkFlow.Network
import NetworkFlow.NetworkSimplex.Basis
import NetworkFlow.NetworkSimplex.Entering
import NetworkFlow.NetworkSimplex.Pivot
import NetworkFlow.NetworkSimplex.Siblings
import NetworkFlow.NetworkSimplex.Solve
import NetworkFlow.Problem
import NetworkFlow.Registry.Basic
import NetworkFlow.Registry.Job
import NetworkFlow.Registry.Object
import NetworkFlow.Residual
import NetworkFlow.Scalar
import NetworkFlow.Solver
import NetworkFlow.Table
import NetworkFlow.Verdict
import NetworkFlow.Word
import NetworkFlow.Proofs.Flow
import NetworkFlow.Proofs.Walk
import NetworkFlow.Proofs.Reach
import NetworkFlow.Proofs.Exact
import NetworkFlow.Proofs.Prepared
import NetworkFlow.Proofs.BellmanFord.Rounds
import NetworkFlow.Proofs.BellmanFord.Distances
import NetworkFlow.Proofs.CapacityScaling.Augment
import NetworkFlow.Proofs.CapacityScaling.Optimal
import NetworkFlow.Proofs.Classification
import NetworkFlow.Proofs.CostScaling.Optimal
import NetworkFlow.Proofs.MaxFlow.Cuts
import NetworkFlow.Proofs.NetworkSimplex.Bland
import NetworkFlow.Proofs.NetworkSimplex.Levels
import NetworkFlow.Proofs.NetworkSimplex.Optimal
import NetworkFlow.Proofs.NetworkSimplex.Siblings
import NetworkFlow.Proofs.NetworkSimplex.Termination
import NetworkFlow.Proofs.NetworkSimplex.Visited
import NetworkFlow.Proofs.NetworkSimplex.Choice
import NetworkFlow.Proofs.Reported
import NetworkFlow.Proofs.Methods
import NetworkFlow.Proofs.Agreement
import NetworkFlow.Proofs.Potentials
import NetworkFlow.Proofs.RunningSums
import NetworkFlow.Proofs.Amounts
import NetworkFlow.Proofs.InStep
import NetworkFlow.Proofs.Registry.Overlapping
import NetworkFlow.Proofs.HandleTable.Slots
import NetworkFlow.Proofs.HandleTable.History
import NetworkFlow.Proofs.HandleTable.Adjust
import NetworkFlow.Proofs.Registry.Requests
import NetworkFlow.Proofs.Registry.Refused
import NetworkFlow.Proofs.Registry.Job
import NetworkFlow.Proofs.Registry.WellFormed
import NetworkFlow.Proofs.Registry.LastRun
import NetworkFlow.Proofs.Graph.Keys
import NetworkFlow.Proofs.Graph.HandedOut
import NetworkFlow.Proofs.Graph.Lineage
import NetworkFlow.Proofs.Graph.Building
import NetworkFlow.Proofs.Graph.Twins
import NetworkFlow.Proofs.Graph.Maps
import NetworkFlow.Proofs.Solver.Requests
import NetworkFlow.Proofs.Solver.Protocol
import NetworkFlow.Proofs.Solver.Alike
import NetworkFlow.Proofs.Orderly
import NetworkFlow.Proofs.Registry.Counts
import NetworkFlow.Proofs.Flat.Underlying
import NetworkFlow.Proofs.Flat.Faithful
import NetworkFlow.Proofs.Cancelling
import NetworkFlow.Proofs.CapacityScaling.Schedule
import NetworkFlow.Proofs.CostScaling.Exactness
import NetworkFlow.Proofs.CostScaling.Passed
import NetworkFlow.Proofs.CapacityScaling.Passed
import NetworkFlow.Proofs.Adjacency
import NetworkFlow.Proofs.CapacityScaling.Shortest
import NetworkFlow.Proofs.Solver.TotalCost
import NetworkFlow.Proofs.CommandLine.Loaded
import NetworkFlow.Proofs.CommandLine.Described
