import Inlining.Program.Notation
import Inlining.Session
import Inlining.SiteIndex.Diagram
import Inlining.Proofs.Graph.Adjacency
import Inlining.Proofs.Program.Locations
import Inlining.Proofs.Program.Inline
import Inlining.Proofs.Program.Sweep
import Inlining.Proofs.SiteIndex.Views
import Inlining.Proofs.SiteIndex.Build
import Inlining.Proofs.SiteIndex.Redistribution
import Inlining.Proofs.Run.Step
import Inlining.Proofs.Run.Trace
import Inlining.Proofs.Run.Workspace
import Inlining.Proofs.Selection
import Inlining.Proofs.Run.Simulation
import Inlining.Proofs.Run.Growth
import Inlining.Proofs.Run.Fidelity
import Inlining.Proofs.Run.Starvation
import Inlining.Proofs.Graph.Search
import Inlining.Proofs.Graph.Components
import Inlining.Proofs.CallGraph
import Inlining.Proofs.Program.CallPaths
import Inlining.Proofs.Run.Cycles
import Inlining.Proofs.Run.Termination
import Inlining.Proofs.Policy.Entries
import Inlining.Proofs.Policy.Greed
import Inlining.Proofs.Policy.Supply
import Inlining.Proofs.Program.Expansion
import Inlining.Proofs.Run.Expansion
import Inlining.Proofs.Program.Entries
import Inlining.Proofs.Program.Flow
import Inlining.Proofs.Program.SweepProfile
import Inlining.Proofs.Program.InlineProfile
import Inlining.Proofs.SiteIndex.Reestimation
import Inlining.Proofs.Policy.Requests
import Inlining.Proofs.Policy.Exclusion
import Inlining.Proofs.Program.Numbering
import Inlining.Proofs.Policy.Upkeep
import Inlining.Proofs.Policy.Pending
import Inlining.Proofs.Run.Exhaustion
import Inlining.Proofs.Policy.Ledger
import Inlining.Proofs.Program.CallOrder
import Inlining.Proofs.SiteIndex.Conservation
import Inlining.Proofs.Policy.Choice
import Inlining.Proofs.Run.Engine
import Inlining.Proofs.SiteIndex.Exactness
import Inlining.Proofs.SiteIndex.Batch
import Inlining.Proofs.Program.Liveness
import Inlining.Proofs.Program.Monotone
import Inlining.Proofs.Policy.Budget
import Inlining.Proofs.Share
import Inlining.Proofs.Graph.Walk
import Inlining.Proofs.Graph.Rows
import Inlining.Proofs.Settings
import Inlining.Proofs.Text.Label
