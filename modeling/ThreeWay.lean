import ThreeWay.Ascending
import ThreeWay.Checkout.Basic
import ThreeWay.Checkout.Content
import ThreeWay.Checkout.Listing
import ThreeWay.Classify
import ThreeWay.CommandLine.Arguments
import ThreeWay.CommandLine.Execute
import ThreeWay.CommandLine.Style
import ThreeWay.CommandLine.Text
import ThreeWay.Compare
import ThreeWay.Deflate.Bits
import ThreeWay.Deflate.Code
import ThreeWay.Deflate.Inflate
import ThreeWay.Diff.Build
import ThreeWay.Diff.Node
import ThreeWay.Diff.Pairing
import ThreeWay.Digest.Padding
import ThreeWay.Digest.Sha1
import ThreeWay.Digest.Sha256
import ThreeWay.Disk.Basic
import ThreeWay.Disk.Edit
import ThreeWay.Disk.Hash
import ThreeWay.Disk.Read
import ThreeWay.Error
import ThreeWay.Forest
import ThreeWay.Heap
import ThreeWay.Ignore.Rule
import ThreeWay.Ignore.Verdict
import ThreeWay.Ignore.Wildcard
import ThreeWay.Index
import ThreeWay.Json.Encode
import ThreeWay.Json.Parser
import ThreeWay.Json.Printer
import ThreeWay.Json.Value
import ThreeWay.Main
import ThreeWay.Object.Commit
import ThreeWay.Object.Database
import ThreeWay.Object.Id
import ThreeWay.Object.Tree
import ThreeWay.Path.Basic
import ThreeWay.Path.Raw
import ThreeWay.Proofs.Agreement
import ThreeWay.Proofs.Ancestry
import ThreeWay.Proofs.Argument
import ThreeWay.Proofs.Ascending
import ThreeWay.Proofs.Cancelled
import ThreeWay.Proofs.Changed
import ThreeWay.Proofs.Checkout.Answers
import ThreeWay.Proofs.Checkout.Difference
import ThreeWay.Proofs.Checkout.Failure
import ThreeWay.Proofs.Checkout.Member
import ThreeWay.Proofs.Checkout.Read
import ThreeWay.Proofs.Checkout.Scan
import ThreeWay.Proofs.Checkout.Shown
import ThreeWay.Proofs.Checkout.Sides
import ThreeWay.Proofs.Checkout.Snapshot
import ThreeWay.Proofs.Checkout.Staged
import ThreeWay.Proofs.Checkout.Tracked
import ThreeWay.Proofs.Checkout.Tree
import ThreeWay.Proofs.Checkout.Working
import ThreeWay.Proofs.Classify
import ThreeWay.Proofs.Classify.Ahead
import ThreeWay.Proofs.Classify.Cap
import ThreeWay.Proofs.Classify.Exchange
import ThreeWay.Proofs.Classify.Handle
import ThreeWay.Proofs.Classify.Proven
import ThreeWay.Proofs.Classify.Verdict
import ThreeWay.Proofs.Collected
import ThreeWay.Proofs.Committed
import ThreeWay.Proofs.Compare
import ThreeWay.Proofs.Content
import ThreeWay.Proofs.Diff.Below
import ThreeWay.Proofs.Diff.Build
import ThreeWay.Proofs.Diff.Bytes
import ThreeWay.Proofs.Diff.Childless
import ThreeWay.Proofs.Diff.Coincide
import ThreeWay.Proofs.Diff.Conserved
import ThreeWay.Proofs.Diff.Deferred
import ThreeWay.Proofs.Diff.Departs
import ThreeWay.Proofs.Diff.Expand
import ThreeWay.Proofs.Diff.Failure
import ThreeWay.Proofs.Diff.Files
import ThreeWay.Proofs.Diff.Hierarchy
import ThreeWay.Proofs.Diff.Join
import ThreeWay.Proofs.Diff.Law
import ThreeWay.Proofs.Diff.Mirror
import ThreeWay.Proofs.Diff.Nodes
import ThreeWay.Proofs.Diff.Reached
import ThreeWay.Proofs.Diff.Stopped
import ThreeWay.Proofs.Diff.Tell
import ThreeWay.Proofs.Diff.Walk
import ThreeWay.Proofs.Disk
import ThreeWay.Proofs.Disk.Missing
import ThreeWay.Proofs.Expanded
import ThreeWay.Proofs.Forest
import ThreeWay.Proofs.Forest.Order
import ThreeWay.Proofs.Heap
import ThreeWay.Proofs.Hollow
import ThreeWay.Proofs.Ignore
import ThreeWay.Proofs.Index
import ThreeWay.Proofs.Limit
import ThreeWay.Proofs.Listed
import ThreeWay.Proofs.Lists
import ThreeWay.Proofs.Malformed
import ThreeWay.Proofs.Object.Id
import ThreeWay.Proofs.Occupied
import ThreeWay.Proofs.Path.Above
import ThreeWay.Proofs.Path.Below
import ThreeWay.Proofs.Path.Inside
import ThreeWay.Proofs.Path.Join
import ThreeWay.Proofs.Path.Names
import ThreeWay.Proofs.Path.Normal
import ThreeWay.Proofs.Path.Parent
import ThreeWay.Proofs.Path.Relative
import ThreeWay.Proofs.Path.Segment
import ThreeWay.Proofs.Pending
import ThreeWay.Proofs.Pristine
import ThreeWay.Proofs.Recorded
import ThreeWay.Proofs.Refusal
import ThreeWay.Proofs.Report
import ThreeWay.Proofs.Repository.Descend
import ThreeWay.Proofs.Repository.Gather
import ThreeWay.Proofs.Repository.Graph
import ThreeWay.Proofs.Repository.History
import ThreeWay.Proofs.Repository.Line
import ThreeWay.Proofs.Repository.Named
import ThreeWay.Proofs.Repository.Origin
import ThreeWay.Proofs.Repository.Record
import ThreeWay.Proofs.Revisions
import ThreeWay.Proofs.Run
import ThreeWay.Proofs.Run.Agree
import ThreeWay.Proofs.Run.Related
import ThreeWay.Proofs.Run.Stopped
import ThreeWay.Proofs.Scan.Accounted
import ThreeWay.Proofs.Scan.Compared
import ThreeWay.Proofs.Scan.Law
import ThreeWay.Proofs.Scan.Refused
import ThreeWay.Proofs.Scan.Script
import ThreeWay.Proofs.Scan.Settle
import ThreeWay.Proofs.Scan.State
import ThreeWay.Proofs.Scan.Stopped
import ThreeWay.Proofs.Scan.Unreadable
import ThreeWay.Proofs.Scan.Walk
import ThreeWay.Proofs.Staged
import ThreeWay.Proofs.Status
import ThreeWay.Proofs.Text.Lossy
import ThreeWay.Proofs.Text.Utf8
import ThreeWay.Proofs.Tip
import ThreeWay.Proofs.Workspace.Staging
import ThreeWay.Regex.Basic
import ThreeWay.Regex.Parser
import ThreeWay.Repository.Basic
import ThreeWay.Repository.Discovery
import ThreeWay.Repository.History
import ThreeWay.Repository.Record
import ThreeWay.Repository.Resolve
import ThreeWay.Repository.Revspec
import ThreeWay.Repository.Walk
import ThreeWay.Revision
import ThreeWay.Run
import ThreeWay.Scan
import ThreeWay.Settings.Basic
import ThreeWay.Settings.Json
import ThreeWay.Settings.Load
import ThreeWay.Settings.Toml
import ThreeWay.Settings.Yaml
import ThreeWay.Status
import ThreeWay.Storage.IndexFile
import ThreeWay.Storage.Load
import ThreeWay.Storage.Numbers
import ThreeWay.Storage.Objects
import ThreeWay.Storage.Pack
import ThreeWay.Storage.References
import ThreeWay.Store.Basic
import ThreeWay.Synchronizer
import ThreeWay.Text.ByteSet
import ThreeWay.Text.Hex
import ThreeWay.Text.LetterTable
import ThreeWay.Text.Lowercase
import ThreeWay.Text.Reader
import ThreeWay.Text.Utf8
import ThreeWay.Timestamp
import ThreeWay.Toml.Document
import ThreeWay.Toml.Parser
import ThreeWay.Variant
import ThreeWay.Workspace.Basic
import ThreeWay.Workspace.Staging
import ThreeWay.Workspace.Switch
import ThreeWay.Yaml.Node
import ThreeWay.Yaml.Token
