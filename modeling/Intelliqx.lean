import Intelliqx.Service.Interleavings
import Intelliqx.Kg.Graph
import Intelliqx.Kg.Neighbors
import Intelliqx.Kg.Partitions
import Intelliqx.Okf.Frontmatter
import Intelliqx.Okf.Index
import Intelliqx.Okf.RoundTrip
import Intelliqx.Okf.History
import Intelliqx.Base.Digraph
import Intelliqx.Graph.Models
import Intelliqx.Graph.Query
import Intelliqx.Graph.Verification
import Intelliqx.Graph.Passes
import Intelliqx.Graph.DeadCode
import Intelliqx.Graph.Pipeline
import Intelliqx.Graph.SecurityAgent
import Intelliqx.Base.FirstBy
import Intelliqx.Graph.CallGraph
import Intelliqx.Graph.GenerateHelper
import Intelliqx.Graph.Emission
import Intelliqx.Py.ParameterText
import Intelliqx.Graph.Signature
import Intelliqx.Graph.SignatureRoundTrip
import Intelliqx.Service.Outcomes
import Intelliqx.Service.Retries
import Intelliqx.Base.Mealy
import Intelliqx.Storage.InMemory
import Intelliqx.Tenant.Isolation
import Intelliqx.State.Slots
import Intelliqx.State.Expiry
import Intelliqx.State.Runs
import Intelliqx.Layers.Draft
import Intelliqx.Layers.ControlFlow
import Intelliqx.Layers.DataFlow
import Intelliqx.Layers.DependencyGraph
import Intelliqx.Layers.SecurityGraph
import Intelliqx.Layers.DeploymentGraph
import Intelliqx.Layers.ResourceGraph
import Intelliqx.Layers.StateTransition
import Intelliqx.Layers.Registry
import Intelliqx.Layers.StateOrder
import Intelliqx.Layers.EntityOrder
import Intelliqx.Layers.FileOrder
import Intelliqx.Base.SplitOrder
import Intelliqx.Py.FileSystem
import Intelliqx.Storage.LocalFileSystem
import Intelliqx.Storage.Keys
import Intelliqx.Storage.Parity
import Intelliqx.Storage.Listing
import Intelliqx.Base.Cycles
import Intelliqx.Graph.CycleBreaking
import Intelliqx.Graph.Removal
import Intelliqx.Graph.Inlining
import Intelliqx.Graph.Splitting
import Intelliqx.Service.Rows
import Intelliqx.Service.Payloads
import Intelliqx.Service.Attempts
import Intelliqx.Base.TokenBucket
import Intelliqx.Tools.RateLimiter
import Intelliqx.Events.Bus
import Intelliqx.Events.Dispatch
import Intelliqx.Kg.Concurrent
import Intelliqx.Okf.Hits
import Intelliqx.Okf.Soundness
import Intelliqx.Base.Levels
import Intelliqx.Graph.Parallel
import Intelliqx.Base.Search
import Intelliqx.Graph.Duplicates
import Intelliqx.Graph.Report
import Intelliqx.Graph.Traces
import Intelliqx.Layers.Membership
import Intelliqx.Py.Ast
import Intelliqx.Graph.PythonParser
import Intelliqx.Base.AttrDigraph
import Intelliqx.Graph.Index
import Intelliqx.Graph.Coherence
import Intelliqx.Base.Bidirectional
import Intelliqx.Graph.CriticalPath
import Intelliqx.Graph.CallExtraction
import Intelliqx.Graph.Generators
import Intelliqx.Graph.Docstrings
import Intelliqx.Graph.Ingest
import Intelliqx.Layers.PatternOrder
import Intelliqx.Graph.Repository
import Intelliqx.Kg.FailedWrites
import Intelliqx.Service.Budget
import Intelliqx.Okf.VectorSearch
import Intelliqx.Py.Regex
import Intelliqx.Okf.Concept
import Intelliqx.Okf.Dumping
import Intelliqx.Okf.Saving
import Intelliqx.Okf.Sections
import Intelliqx.Okf.LinkPaths
import Intelliqx.Okf.Links
import Intelliqx.Storage.Containment
import Intelliqx.Observability.Secrets
import Intelliqx.Observability.Logging
import Intelliqx.Observability.Rendering
import Intelliqx.Observability.Leaves
import Intelliqx.Compute.Runtime
import Intelliqx.Py.Resource
import Intelliqx.Sdk.Sandbox
import Intelliqx.Base.StableSort
import Intelliqx.Graph.SignatureOrder
import Intelliqx.Okf.DotSegments
import Intelliqx.Base.Ranks
import Intelliqx.Observability.Metrics
import Intelliqx.Observability.Percentiles
import Intelliqx.Observability.Exposition
import Intelliqx.Observability.MetricsPage
import Intelliqx.Events.Contracts
import Intelliqx.Py.Replace
import Intelliqx.Scripts.UnderscoreFixer
import Intelliqx.Py.Layout
import Intelliqx.Py.Blanking
import Intelliqx.Scripts.ImportFixer
import Intelliqx.Graph.Agents
import Intelliqx.Graph.FlowAnalysis
import Intelliqx.Graph.Architecture
import Intelliqx.Graph.Performance
import Intelliqx.Compute.RunContext
import Intelliqx.Agents.Catalog
import Intelliqx.Service.Api
import Intelliqx.Service.Client
import Intelliqx.Graph.SecurityReport
import Intelliqx.Okf.Loading
import Intelliqx.Okf.BundleStore
import Intelliqx.Okf.Validation
import Intelliqx.Graph.DuplicatesFound
import Intelliqx.Graph.Verdict
import Intelliqx.Graph.Acceptance
import Intelliqx.Base.Greedy
