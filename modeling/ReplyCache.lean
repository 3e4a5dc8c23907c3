import ReplyCache.Buffer
import ReplyCache.Cache.Basic
import ReplyCache.Cache.Operation
import ReplyCache.Cache.Read
import ReplyCache.Cache.Stats
import ReplyCache.Cache.Write
import ReplyCache.Call.Basic
import ReplyCache.Call.Directives
import ReplyCache.Call.Task
import ReplyCache.Data.SortedMap
import ReplyCache.Decimal.Binary
import ReplyCache.Decimal.Shortest
import ReplyCache.Digest.Sha256
import ReplyCache.Entry
import ReplyCache.Event
import ReplyCache.Fault
import ReplyCache.Freshness
import ReplyCache.Journal
import ReplyCache.Json.Basic
import ReplyCache.Json.Literal
import ReplyCache.Json.Number
import ReplyCache.Json.Printer
import ReplyCache.Json.Tree
import ReplyCache.Key.Basic
import ReplyCache.Key.Params
import ReplyCache.Policy
import ReplyCache.Proofs.Cache.Accounts
import ReplyCache.Proofs.Cache.Actions
import ReplyCache.Proofs.Cache.Batches
import ReplyCache.Proofs.Cache.Conservation
import ReplyCache.Proofs.Cache.Contexts
import ReplyCache.Proofs.Cache.Contracts
import ReplyCache.Proofs.Cache.Deletion
import ReplyCache.Proofs.Cache.Denial
import ReplyCache.Proofs.Cache.Faults
import ReplyCache.Proofs.Cache.FlushOrder
import ReplyCache.Proofs.Cache.Forms
import ReplyCache.Proofs.Cache.Groups
import ReplyCache.Proofs.Cache.History
import ReplyCache.Proofs.Cache.Ledger
import ReplyCache.Proofs.Cache.Lifetimes
import ReplyCache.Proofs.Cache.Outcomes
import ReplyCache.Proofs.Cache.Reads
import ReplyCache.Proofs.Cache.Recency
import ReplyCache.Proofs.Cache.Requests
import ReplyCache.Proofs.Cache.Runs
import ReplyCache.Proofs.Cache.Safety
import ReplyCache.Proofs.Cache.Sent
import ReplyCache.Proofs.Cache.Standing
import ReplyCache.Proofs.Cache.Tolerance
import ReplyCache.Proofs.Cache.Totals
import ReplyCache.Proofs.Decimal.Binary
import ReplyCache.Proofs.Decimal.Digits
import ReplyCache.Proofs.Decimal.Interval
import ReplyCache.Proofs.Decimal.Order
import ReplyCache.Proofs.Freshness
import ReplyCache.Proofs.Json.Literal
import ReplyCache.Proofs.Json.Number
import ReplyCache.Proofs.Json.Order
import ReplyCache.Proofs.Json.Reading
import ReplyCache.Proofs.Json.Text
import ReplyCache.Proofs.Key.Canonical
import ReplyCache.Proofs.Key.Dependence
import ReplyCache.Proofs.Key.Element
import ReplyCache.Proofs.Key.Isolation
import ReplyCache.Proofs.Key.Models
import ReplyCache.Proofs.Key.Order
import ReplyCache.Proofs.Key.Parameter
import ReplyCache.Proofs.Store.Clock
import ReplyCache.Proofs.Store.Envelope
import ReplyCache.Proofs.Store.Eviction
import ReplyCache.Proofs.Store.Expiry
import ReplyCache.Proofs.Store.Filing
import ReplyCache.Proofs.Store.Histories
import ReplyCache.Proofs.Store.Memory
import ReplyCache.Proofs.Store.Recall
import ReplyCache.Proofs.Store.Shelf
import ReplyCache.Proofs.Stored
import ReplyCache.Proofs.Yaml.Lexer
import ReplyCache.Proofs.Yaml.Opening
import ReplyCache.Proofs.Yaml.Plain
import ReplyCache.Proofs.Yaml.Resolve
import ReplyCache.Proofs.Yaml.Root
import ReplyCache.Replay
import ReplyCache.Settings.Basic
import ReplyCache.Settings.Engine
import ReplyCache.Settings.Json
import ReplyCache.Settings.Reader
import ReplyCache.Settings.Yaml
import ReplyCache.Span
import ReplyCache.Store.Basic
import ReplyCache.Store.Directory
import ReplyCache.Store.Envelope
import ReplyCache.Store.Files
import ReplyCache.Store.Folder
import ReplyCache.Store.Host
import ReplyCache.Store.Memory
import ReplyCache.Store.Plain
import ReplyCache.Store.Rehearsal
import ReplyCache.Store.Roster
import ReplyCache.Tally
import ReplyCache.Text.Blank
import ReplyCache.Text.Digits
import ReplyCache.Text.Octets
import ReplyCache.Text.Printable
import ReplyCache.Text.Quoted
import ReplyCache.Yaml.Cursor
import ReplyCache.Yaml.Document
import ReplyCache.Yaml.Gap
import ReplyCache.Yaml.Lexer
import ReplyCache.Yaml.Node
import ReplyCache.Yaml.Resolve
import ReplyCache.Yaml.Scalar
import ReplyCache.Yaml.Tag
import ReplyCache.Yaml.Token
import ReplyCache.Yaml.Value
import ReplyCache.Proofs.Decimal.Rounding
import ReplyCache.Proofs.Replay
import ReplyCache.Proofs.Directives
import ReplyCache.Proofs.Json.Whole
import ReplyCache.Proofs.Settings
import ReplyCache.Proofs.Store.Contents
import ReplyCache.Proofs.Cache.Interleaving
import ReplyCache.Proofs.Journal
import ReplyCache.Proofs.Tally
