import PipelineCache.World
import PipelineCache.Location
import PipelineCache.Record.Kind
import PipelineCache.Proofs.Json.Numeral
import PipelineCache.Proofs.Json.Spelling
import PipelineCache.Proofs.Json.Value
import PipelineCache.Proofs.Json.Grammar
import PipelineCache.Proofs.Json.Record
import PipelineCache.Proofs.Record.Spelling
import PipelineCache.Proofs.Cache.Sweep
import PipelineCache.Proofs.Cache.Handover
import PipelineCache.Proofs.Location
import PipelineCache.Proofs.Store.Recovery
import PipelineCache.Proofs.Store.Race
import PipelineCache.Proofs.Cache.History
import PipelineCache.Proofs.Json.Extension
import PipelineCache.Proofs.Json.Steady
import PipelineCache.Proofs.Json.Forms
import PipelineCache.Proofs.Record.Forms
import PipelineCache.Proofs.Variables
import PipelineCache.Proofs.Cache.Growth
import PipelineCache.Proofs.Cache.Separation
import PipelineCache.Proofs.Cache.Entry
import PipelineCache.Proofs.Record.Equality
import PipelineCache.Proofs.Json.Composed
import PipelineCache.Proofs.Json.Lasting
import PipelineCache.Proofs.Json.CutShort
import PipelineCache.Proofs.Record.Composed
import PipelineCache.Proofs.Record.Delimiting
import PipelineCache.Proofs.Json.Settled
import PipelineCache.Proofs.Json.Walk
import PipelineCache.Proofs.Json.Offence
import PipelineCache.Proofs.Record.FirstProblem
import PipelineCache.Proofs.Cache.Repeat
import PipelineCache.Proofs.OrbName
import PipelineCache.Proofs.Cache.Views
import PipelineCache.Proofs.Uri.Grammar
import PipelineCache.Proofs.Uri.Class
import PipelineCache.Proofs.Uri.Scan
import PipelineCache.Proofs.Uri.Address
import PipelineCache.Proofs.Uri.Authority
import PipelineCache.Proofs.Uri.Reference
import PipelineCache.Proofs.Uri.Fault
import PipelineCache.Proofs.Json.Checked
import PipelineCache.Proofs.Record.Document
import PipelineCache.Proofs.Cache.Documents
import PipelineCache.Proofs.Cache.Account
import PipelineCache.Proofs.RootSource
import PipelineCache.Proofs.Store.Missing
import PipelineCache.Proofs.Cache.OwnKey
