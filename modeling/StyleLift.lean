import StyleLift.CommandLine.Arguments
import StyleLift.CommandLine.Manual
import StyleLift.CommandLine.Program
import StyleLift.CommandLine.Report
import StyleLift.Disk.Access
import StyleLift.Disk.Basic
import StyleLift.Disk.Snapshot
import StyleLift.Extraction
import StyleLift.Failure
import StyleLift.Glob.Parser
import StyleLift.Glob.Pattern
import StyleLift.Image
import StyleLift.Json.Parser
import StyleLift.Json.Reader
import StyleLift.Json.Value
import StyleLift.Ledger
import StyleLift.Lifting
import StyleLift.Main
import StyleLift.Naming.Registry
import StyleLift.Naming.Scheme
import StyleLift.Outputs
import StyleLift.Path
import StyleLift.Proofs.Disk.Descent
import StyleLift.Proofs.Disk.Places
import StyleLift.Proofs.Disk.Tree
import StyleLift.Proofs.Disk.Walk
import StyleLift.Proofs.Disk.Ways
import StyleLift.Proofs.Disk.Writing
import StyleLift.Proofs.Extraction.Conservation
import StyleLift.Proofs.Extraction.Excluded
import StyleLift.Proofs.Extraction.Footprint
import StyleLift.Proofs.Extraction.Rescanned
import StyleLift.Proofs.Extraction.Scanned
import StyleLift.Proofs.Extraction.Untouched
import StyleLift.Proofs.FirstOccurrences
import StyleLift.Proofs.Image.DataUrl
import StyleLift.Proofs.Image.Extension
import StyleLift.Proofs.Json.Parsing
import StyleLift.Proofs.Json.Spelling
import StyleLift.Proofs.Ledger.Grouping
import StyleLift.Proofs.Ledger.Records
import StyleLift.Proofs.Lifting.Idempotence
import StyleLift.Proofs.Lifting.LoadBack
import StyleLift.Proofs.Lifting.Postings
import StyleLift.Proofs.Lifting.Restoration
import StyleLift.Proofs.Lifting.Run
import StyleLift.Proofs.Lifting.ScssSheets
import StyleLift.Proofs.Lifting.Selection
import StyleLift.Proofs.Lifting.SharedNames
import StyleLift.Proofs.Naming.Characters
import StyleLift.Proofs.Naming.History
import StyleLift.Proofs.Naming.Registry
import StyleLift.Proofs.Naming.SafeNames
import StyleLift.Proofs.Outputs.Available
import StyleLift.Proofs.Outputs.LeastNumber
import StyleLift.Proofs.Outputs.ReadBack
import StyleLift.Proofs.Path.Below
import StyleLift.Proofs.Path.Components
import StyleLift.Proofs.Path.Names
import StyleLift.Proofs.Path.Parts
import StyleLift.Proofs.Path.Relative
import StyleLift.Proofs.Settings.Discovery
import StyleLift.Proofs.Sheet.Definitions
import StyleLift.Proofs.Sheet.Folders
import StyleLift.Proofs.Sheet.Grouping
import StyleLift.Proofs.Sheet.Loading
import StyleLift.Proofs.Sheet.Sections
import StyleLift.Proofs.Stylesheet.Blocks
import StyleLift.Proofs.Stylesheet.ByteRemoval
import StyleLift.Proofs.Stylesheet.Changes
import StyleLift.Proofs.Stylesheet.ClosedText
import StyleLift.Proofs.Stylesheet.Comments
import StyleLift.Proofs.Stylesheet.Crossings
import StyleLift.Proofs.Stylesheet.Editing
import StyleLift.Proofs.Stylesheet.Flags
import StyleLift.Proofs.Stylesheet.Frames
import StyleLift.Proofs.Stylesheet.Grammar
import StyleLift.Proofs.Stylesheet.Headers
import StyleLift.Proofs.Stylesheet.InsertedComments
import StyleLift.Proofs.Stylesheet.Interpolations
import StyleLift.Proofs.Stylesheet.Lexing
import StyleLift.Proofs.Stylesheet.Locations
import StyleLift.Proofs.Stylesheet.Placement
import StyleLift.Proofs.Stylesheet.PlainValues
import StyleLift.Proofs.Stylesheet.Readings
import StyleLift.Proofs.Stylesheet.Reuse
import StyleLift.Proofs.Stylesheet.Scanning
import StyleLift.Proofs.Stylesheet.ScssEditing
import StyleLift.Proofs.Stylesheet.SourceMap
import StyleLift.Proofs.Stylesheet.SourceSpans
import StyleLift.Proofs.Stylesheet.Splicing
import StyleLift.Proofs.Stylesheet.Statements
import StyleLift.Proofs.Stylesheet.TopLevelColon
import StyleLift.Proofs.Stylesheet.WrittenValues
import StyleLift.Proofs.Text.Ascii
import StyleLift.Proofs.Text.ByteOrder
import StyleLift.Proofs.Text.Bytes
import StyleLift.Proofs.Text.Cuts
import StyleLift.Proofs.Text.Marks
import StyleLift.Proofs.Text.Trim
import StyleLift.Proofs.UsageMap.Decoding
import StyleLift.Proofs.Value.Tokens
import StyleLift.Proofs.Value.UrlForms
import StyleLift.Settings
import StyleLift.Settings.Discovery
import StyleLift.Settings.Json
import StyleLift.Sheet
import StyleLift.Stylesheet.Declaration
import StyleLift.Stylesheet.Document
import StyleLift.Stylesheet.Token
import StyleLift.Stylesheet.Uncommented
import StyleLift.Text.Basic
import StyleLift.Text.Quoted
import StyleLift.Text.Word
import StyleLift.Value
import StyleLift.Value.Gradient
import StyleLift.Value.Image
