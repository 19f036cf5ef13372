import CodeIntel.Analysis.Engine
import CodeIntel.Analysis.Finding
import CodeIntel.Analysis.Outcome
import CodeIntel.CSharp.Actions
import CodeIntel.CSharp.Cache
import CodeIntel.CSharp.Engine
import CodeIntel.CSharp.Identifier
import CodeIntel.Decimal.Binary64
import CodeIntel.Decimal.Shortest
import CodeIntel.Disk.Basic
import CodeIntel.Disk.Create
import CodeIntel.Disk.Normal
import CodeIntel.Disk.Path
import CodeIntel.Disk.Scan
import CodeIntel.Error
import CodeIntel.Json.Basic
import CodeIntel.Json.Decode
import CodeIntel.Json.Printer
import CodeIntel.Json.Reader
import CodeIntel.Main
import CodeIntel.Program.CommandLine
import CodeIntel.Program.Help
import CodeIntel.Program.Launch
import CodeIntel.Regex.Basic
import CodeIntel.Regex.BuiltIn
import CodeIntel.Server.Line
import CodeIntel.Server.Registry
import CodeIntel.Server.Run
import CodeIntel.Server.Verbosity
import CodeIntel.Service.Answer
import CodeIntel.Service.Batch
import CodeIntel.Service.Call
import CodeIntel.Service.Dispatch
import CodeIntel.Service.Encode
import CodeIntel.Service.Operation
import CodeIntel.Service.Plan
import CodeIntel.Solution.Descriptor
import CodeIntel.Solution.Load
import CodeIntel.Source.CodeLines
import CodeIntel.Source.Document
import CodeIntel.Source.Edit
import CodeIntel.Source.Lines
import CodeIntel.Source.Position
import CodeIntel.Symbol.Info
import CodeIntel.Symbol.Kind
import CodeIntel.Symbol.Pattern
import CodeIntel.Text.Basic
import CodeIntel.Text.Blank
import CodeIntel.Text.ControlSequence
import CodeIntel.Text.Letter
import CodeIntel.Text.Quoted
import CodeIntel.Text.Utf8
import CodeIntel.Tree.Basic
import CodeIntel.Tree.Exchange
import CodeIntel.Tree.Fault
import CodeIntel.Tree.Index
import CodeIntel.Tree.Measure
import CodeIntel.Workspace.Keyed
import CodeIntel.Workspace.Snapshot
import CodeIntel.Workspace.Store
import CodeIntel.Proofs.Outcome
import CodeIntel.Proofs.Workspace.Operations
import CodeIntel.Proofs.Workspace.Runs
import CodeIntel.Proofs.Workspace.History
import CodeIntel.Proofs.Disk.Names
import CodeIntel.Proofs.Disk.Walk
import CodeIntel.Proofs.Disk.Files
import CodeIntel.Proofs.Workspace.KeyOrder
import CodeIntel.Proofs.Workspace.Documents
import CodeIntel.Proofs.Workspace.Coherence
import CodeIntel.Proofs.Service.Cancellation
import CodeIntel.Proofs.Source.Positions
import CodeIntel.Proofs.Source.Words
import CodeIntel.Proofs.Tree.Walks
import CodeIntel.Proofs.Tree.Steps
import CodeIntel.Proofs.Tree.Identifiers
import CodeIntel.Proofs.Tree.Cursor
import CodeIntel.Proofs.Tree.Records
import CodeIntel.Proofs.Tree.Members
import CodeIntel.Proofs.CSharp.Rename
import CodeIntel.Proofs.Workspace.Representation
import CodeIntel.Proofs.Disk.Writes
import CodeIntel.Proofs.Workspace.WriteBack
import CodeIntel.Proofs.Workspace.Rollback
import CodeIntel.Proofs.Source.Splicing
import CodeIntel.Proofs.Workspace.EditedFiles
import CodeIntel.Proofs.Workspace.Reconciliation
import CodeIntel.Proofs.Disk.Listing
import CodeIntel.Proofs.Disk.Places
import CodeIntel.Proofs.Workspace.Loading
import CodeIntel.Proofs.Workspace.Reloading
import CodeIntel.Proofs.Disk.Rewriting
import CodeIntel.Proofs.Workspace.Agreement
import CodeIntel.Proofs.Workspace.GroupedEdits
import CodeIntel.Proofs.Workspace.Staleness
import CodeIntel.Proofs.Server.Reading
import CodeIntel.Proofs.Server.Answering
import CodeIntel.Proofs.Service.Calls
import CodeIntel.Proofs.Service.Effects
import CodeIntel.Proofs.Service.Previews
import CodeIntel.Proofs.Workspace.Committing
import CodeIntel.Proofs.Source.Adjunction
import CodeIntel.Proofs.Workspace.Folders
import CodeIntel.Proofs.Workspace.ProjectLists
import CodeIntel.Proofs.Workspace.Orphans
import CodeIntel.Proofs.Source.Editing
import CodeIntel.Proofs.Source.EditOrder
import CodeIntel.Proofs.Source.LineEnds
import CodeIntel.Proofs.Disk.Destinations
import CodeIntel.Proofs.Workspace.Containment
import CodeIntel.Proofs.Workspace.AbsentPaths
import CodeIntel.Proofs.Workspace.RepeatedSyncs
import CodeIntel.Proofs.Sorting
import CodeIntel.Proofs.Regex.BuiltIn
import CodeIntel.Proofs.Symbol.Matching
import CodeIntel.Proofs.Service.Searches
import CodeIntel.Proofs.CSharp.Caching
import CodeIntel.Proofs.CSharp.References
import CodeIntel.Proofs.CSharp.Definitions
import CodeIntel.Proofs.CSharp.CallHierarchy
import CodeIntel.Proofs.CSharp.Symbols
import CodeIntel.Proofs.Source.Extents
import CodeIntel.Proofs.Tree.Contents
import CodeIntel.Proofs.Text.Strung
import CodeIntel.Proofs.CSharp.Actions
import CodeIntel.Proofs.CSharp.Imports
import CodeIntel.Proofs.Source.CodeLines
import CodeIntel.Proofs.Tree.Comments
import CodeIntel.Proofs.Tree.Containers
import CodeIntel.Proofs.CSharp.TypeMembers
import CodeIntel.Proofs.CSharp.MethodSource
import CodeIntel.Proofs.Service.Batches
import CodeIntel.Proofs.Server.Registrations
import CodeIntel.Proofs.Tree.Faults
import CodeIntel.Proofs.CSharp.Diagnostics
import CodeIntel.Proofs.Tree.Methods
import CodeIntel.Proofs.CSharp.Enclosing
import CodeIntel.Proofs.Disk.Sources
import CodeIntel.Proofs.Tree.Spots
import CodeIntel.Proofs.Tree.Entries
import CodeIntel.Proofs.Tree.Surroundings
import CodeIntel.Proofs.Tree.Nesting
