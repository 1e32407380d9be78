import StagedResolve.Ancestry
import StagedResolve.Bound
import StagedResolve.Builtins
import StagedResolve.CompilationUnit
import StagedResolve.Counters
import StagedResolve.Declaration
import StagedResolve.Declaration.Kind
import StagedResolve.Designation
import StagedResolve.Digest
import StagedResolve.Draft
import StagedResolve.Failure
import StagedResolve.Graph
import StagedResolve.Imports
import StagedResolve.Inspection
import StagedResolve.LockScript
import StagedResolve.Locks
import StagedResolve.Name
import StagedResolve.Phase
import StagedResolve.Proofs.Agreement
import StagedResolve.Proofs.Answers
import StagedResolve.Proofs.Blueprints
import StagedResolve.Proofs.Budgets
import StagedResolve.Proofs.Capacities
import StagedResolve.Proofs.Catalogs
import StagedResolve.Proofs.Clauses
import StagedResolve.Proofs.Commits
import StagedResolve.Proofs.Components
import StagedResolve.Proofs.Contention
import StagedResolve.Proofs.Cuts
import StagedResolve.Proofs.Deferral
import StagedResolve.Proofs.Designations
import StagedResolve.Proofs.Detours
import StagedResolve.Proofs.Disclosure
import StagedResolve.Proofs.Echoes
import StagedResolve.Proofs.Endings
import StagedResolve.Proofs.Errands
import StagedResolve.Proofs.Failures
import StagedResolve.Proofs.Findings
import StagedResolve.Proofs.Forms
import StagedResolve.Proofs.Frames
import StagedResolve.Proofs.Grounded
import StagedResolve.Proofs.Guarantee
import StagedResolve.Proofs.Headers
import StagedResolve.Proofs.Hierarchies
import StagedResolve.Proofs.Histories
import StagedResolve.Proofs.Holding
import StagedResolve.Proofs.Indexes
import StagedResolve.Proofs.Inference
import StagedResolve.Proofs.Inheritance
import StagedResolve.Proofs.Interruptions
import StagedResolve.Proofs.Itineraries
import StagedResolve.Proofs.Layouts
import StagedResolve.Proofs.Learning
import StagedResolve.Proofs.Listings
import StagedResolve.Proofs.Liveness
import StagedResolve.Proofs.Lookups
import StagedResolve.Proofs.Meanings
import StagedResolve.Proofs.Memories
import StagedResolve.Proofs.Naming
import StagedResolve.Proofs.Orders
import StagedResolve.Proofs.Packages
import StagedResolve.Proofs.Parallel
import StagedResolve.Proofs.PhaseSteps
import StagedResolve.Proofs.PhaseWork
import StagedResolve.Proofs.Phases
import StagedResolve.Proofs.Piecework
import StagedResolve.Proofs.Promotion
import StagedResolve.Proofs.Reachability
import StagedResolve.Proofs.Readings
import StagedResolve.Proofs.Refusals
import StagedResolve.Proofs.Registries
import StagedResolve.Proofs.Regularity
import StagedResolve.Proofs.Reports
import StagedResolve.Proofs.Requests
import StagedResolve.Proofs.Rounds
import StagedResolve.Proofs.Runs
import StagedResolve.Proofs.Service
import StagedResolve.Proofs.SessionWalks
import StagedResolve.Proofs.Sessions
import StagedResolve.Proofs.Signatures
import StagedResolve.Proofs.Sources
import StagedResolve.Proofs.Staging
import StagedResolve.Proofs.SyntaxTrees
import StagedResolve.Proofs.Threads
import StagedResolve.Proofs.Titles
import StagedResolve.Proofs.Trees
import StagedResolve.Proofs.Upward
import StagedResolve.Proofs.Values
import StagedResolve.Proofs.Vouching
import StagedResolve.Proofs.WaitOrder
import StagedResolve.Proofs.Waiting
import StagedResolve.Proofs.Walks
import StagedResolve.Proofs.Wholes
import StagedResolve.Proofs.Workings
import StagedResolve.Proofs.Worlds
import StagedResolve.Proofs.WriteBack
import StagedResolve.Registry
import StagedResolve.Report
import StagedResolve.ResolvedType
import StagedResolve.Resolver
import StagedResolve.Rules
import StagedResolve.Rules.Contract
import StagedResolve.Rules.Inferred
import StagedResolve.Rules.Signature
import StagedResolve.Rules.Status
import StagedResolve.Scope
import StagedResolve.Setup
import StagedResolve.SourceTree
import StagedResolve.Span
import StagedResolve.Supertypes.Commit
import StagedResolve.Supertypes.Compute
import StagedResolve.Supertypes.Cycles
import StagedResolve.Supertypes.Session
import StagedResolve.Symbol
import StagedResolve.Table
import StagedResolve.Walk
import StagedResolve.Workspace
import StagedResolve.World
import StagedResolve.WrittenType
