import Planning.Acceptor.Basic
import Planning.Console.Line
import Planning.Constraint.Basic
import Planning.Constraint.Document
import Planning.Constraint.Set
import Planning.Constraint.Stream
import Planning.Decimal.Text
import Planning.Descriptor.Basic
import Planning.Descriptor.Document
import Planning.Descriptor.Validation
import Planning.Director.Basic
import Planning.Director.Shadow
import Planning.Document.Basic
import Planning.Document.Fields
import Planning.Document.Json
import Planning.Document.Toml.Basic
import Planning.Document.Toml.Scalar
import Planning.Document.Toml.Table
import Planning.Document.Yaml.Cursor
import Planning.Document.Yaml.Layout
import Planning.Document.Yaml.Reading
import Planning.Document.Yaml.Scalar
import Planning.Document.Yaml.Structure
import Planning.Document.Yaml.Token
import Planning.Document.Yaml.Word
import Planning.Domain.Basic
import Planning.Domain.Dynamic
import Planning.Domain.Queens
import Planning.Domain.Routing
import Planning.Domain.Timetable
import Planning.Dynamic.Document
import Planning.Dynamic.Problem
import Planning.Fault
import Planning.Forager
import Planning.Graph.Collector
import Planning.Graph.Complement
import Planning.Graph.Delta
import Planning.Graph.Exists
import Planning.Graph.Filter
import Planning.Graph.GroupBy
import Planning.Graph.Join
import Planning.Graph.JoinIndex
import Planning.Graph.LoadBalance
import Planning.Graph.Node
import Planning.Jobs
import Planning.Log
import Planning.Log.Document
import Planning.Move.Arena
import Planning.Move.Basic
import Planning.Move.List
import Planning.Move.Value
import Planning.Phase.Basic
import Planning.Phase.Construction
import Planning.Phase.Exhaustive
import Planning.Phase.LocalSearch
import Planning.Problem
import Planning.ProblemChange
import Planning.Problems.Queens
import Planning.Problems.Routing
import Planning.Problems.Timetable
import Planning.Proofs.Acceptor
import Planning.Proofs.Checked
import Planning.Proofs.Console
import Planning.Proofs.Constraint.Run
import Planning.Proofs.Constraint.Set
import Planning.Proofs.Constraint.Total
import Planning.Proofs.Constraint.Worth
import Planning.Proofs.Descriptor
import Planning.Proofs.Director.Atomic
import Planning.Proofs.Director.Bookkeeping
import Planning.Proofs.Director.Congruence
import Planning.Proofs.Director.Derived
import Planning.Proofs.Director.Evaluate
import Planning.Proofs.Director.Evolution
import Planning.Proofs.Director.Full
import Planning.Proofs.Director.InRange
import Planning.Proofs.Director.Incremental
import Planning.Proofs.Director.Revision
import Planning.Proofs.Director.Run
import Planning.Proofs.Director.Shadow
import Planning.Proofs.Director.Solution
import Planning.Proofs.Graph.Collector
import Planning.Proofs.Graph.Complement
import Planning.Proofs.Graph.Exists
import Planning.Proofs.Graph.Filter
import Planning.Proofs.Graph.Flatten
import Planning.Proofs.Graph.GroupBy
import Planning.Proofs.Graph.Groups
import Planning.Proofs.Graph.Histories
import Planning.Proofs.Graph.Join
import Planning.Proofs.Graph.Joiner
import Planning.Proofs.Graph.Lookup
import Planning.Proofs.Graph.Meaning
import Planning.Proofs.Graph.Node
import Planning.Proofs.Move.Alike
import Planning.Proofs.Move.Content
import Planning.Proofs.Move.Doable
import Planning.Proofs.Move.List
import Planning.Proofs.Move.Signature
import Planning.Proofs.Move.Undo
import Planning.Proofs.Phase.Blocked
import Planning.Proofs.Phase.Boundary
import Planning.Proofs.Phase.BranchAndBound
import Planning.Proofs.Phase.Confined
import Planning.Proofs.Phase.Construction
import Planning.Proofs.Phase.Exact
import Planning.Proofs.Phase.Exhaustive
import Planning.Proofs.Phase.Forage
import Planning.Proofs.Phase.Greedy
import Planning.Proofs.Phase.HillClimbing
import Planning.Proofs.Phase.Insertion
import Planning.Proofs.Phase.Level
import Planning.Proofs.Phase.LocalSearch
import Planning.Proofs.Phase.SearchTree
import Planning.Proofs.Phase.Tabu
import Planning.Proofs.Phase.Tended
import Planning.Proofs.Phase.Threads
import Planning.Proofs.Phase.Tracked
import Planning.Proofs.Phase.Unimproved
import Planning.Proofs.Phase.Walk
import Planning.Proofs.Problems.Agreement
import Planning.Proofs.Problems.Queens
import Planning.Proofs.Problems.Routing.Edits
import Planning.Proofs.Problems.Routing.Freshness
import Planning.Proofs.Problems.Routing.Listeners
import Planning.Proofs.Problems.Routing.Revision
import Planning.Proofs.Problems.Routing.Trial
import Planning.Proofs.Problems.Routing.Undo
import Planning.Proofs.Problems.Timetable
import Planning.Proofs.Run.Basic
import Planning.Proofs.Run.Changes
import Planning.Proofs.Run.Held
import Planning.Proofs.Run.Leads
import Planning.Proofs.Run.Steady
import Planning.Proofs.Run.Track
import Planning.Proofs.Run.Twin
import Planning.Proofs.Run.Unimproved
import Planning.Proofs.Score.Feasible
import Planning.Proofs.Score.Group
import Planning.Proofs.Score.Order
import Planning.Proofs.Score.Text
import Planning.Proofs.Selector.Listed
import Planning.Proofs.Selector.Neighborhood
import Planning.Proofs.Sequence
import Planning.Proofs.Settings.Conditions
import Planning.Proofs.Settings.Solver
import Planning.Proofs.Settings.Validation
import Planning.Proofs.Solver.Best
import Planning.Proofs.Solver.Course
import Planning.Proofs.Solver.Failure
import Planning.Proofs.Solver.InRange
import Planning.Proofs.Solver.Unimproved
import Planning.Proofs.ValueRange
import Planning.Random.Generator
import Planning.Run.Basic
import Planning.Run.Event
import Planning.Run.State
import Planning.Score.Basic
import Planning.Score.Document
import Planning.Score.Text
import Planning.Selector.Basic
import Planning.Selector.Neighborhood
import Planning.Selector.Settings
import Planning.Sequence
import Planning.Settings.Basic
import Planning.Settings.Choice
import Planning.Settings.Document
import Planning.Settings.Source
import Planning.Settings.Summary
import Planning.Settings.Validation
import Planning.Solution
import Planning.Solver.Basic
import Planning.Solver.Document
import Planning.Solver.Settings
import Planning.SolverError
import Planning.SolverError.Document
import Planning.Statistics
import Planning.Table
import Planning.Termination.Basic
import Planning.Termination.Document
import Planning.Termination.Settings
import Planning.Text.Integer
import Planning.Text.Record
import Planning.Text.Unmarked
import Planning.Value.Basic
import Planning.Value.Document
import Planning.Value.Formula
import Planning.Value.Text
import Planning.ValueRange
import Planning.Variable
