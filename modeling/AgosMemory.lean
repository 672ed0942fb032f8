import AgosMemory.Memory.RedactFixpoint
import AgosMemory.Memory.Persist
import AgosMemory.Memory.Sessions
import AgosMemory.Memory.Extract
import AgosMemory.Memory.Candidates
import AgosMemory.Runs.Extraction
import AgosMemory.Runs.Tombstones
import AgosMemory.Runs.Clients
import AgosMemory.Runs.Versions
import AgosMemory.Runs.Sweeps
import AgosMemory.Runs.Reaping
import AgosMemory.Runs.Pins
import AgosMemory.Runs.Summaries
import AgosMemory.Runs.Audit
import AgosMemory.Runs.Consolidation
import AgosMemory.Runs.Clusters
import AgosMemory.Cli.ExportComplete
import AgosMemory.Cli.Markdown
import AgosMemory.Cli.Reingest
import AgosMemory.Cli.RoundTrip
import AgosMemory.Cli.Reimport
import AgosMemory.Cli.AllOrNothing
import AgosMemory.Writer.Protocol
import AgosMemory.Server.Exact
import AgosMemory.Storage.LineDiff
import AgosMemory.Storage.Purge
import AgosMemory.Recall.Surfaces
import AgosMemory.Recall.Fences
import AgosMemory.Recall.Accounting
import AgosMemory.Recall.Predicate
import AgosMemory.Recall.Dominance
import AgosMemory.Recall.Shares
import AgosMemory.Recall.Totality
import AgosMemory.Recall.Audit
import AgosMemory.Recall.Encoders
import AgosMemory.Runs.Trust
import AgosMemory.Runs.Redacted
import AgosMemory.Runs.Fresh
import AgosMemory.Runs.Mirror
import AgosMemory.Runs.References
import AgosMemory.Runs.Laundering
import AgosMemory.Runs.Labels
import AgosMemory.Memory.PromptSecrets
import AgosMemory.Jobs.Durable
import AgosMemory.Jobs.Loss
import AgosMemory.Jobs.Scheduler
import AgosMemory.Eval.Rouge
import AgosMemory.Eval.Gate
import AgosMemory.Storage.Pool
import AgosMemory.Storage.Snapshot
import AgosMemory.Cli.Aligned
import AgosMemory.Recall.Why
import AgosMemory.Runs.Caching
import AgosMemory.Runs.Overdue
import AgosMemory.Runs.Torn
import AgosMemory.Runs.Chunked
import AgosMemory.Runs.Opening
import AgosMemory.Runs.Spending
import AgosMemory.Runs.Unbilled
