import Ztd.Lib.Heap
import Ztd.Lib.Levels
import Ztd.Lib.OrderedMap
import Ztd.Lib.Places
import Ztd.Lib.Run
import Ztd.Lib.Text
import Ztd.Lib.Trace
import Ztd.Lib.Triple
import Ztd.Lib.Turns
import Ztd.Filedat.Chunk
import Ztd.Filedat.Printer
import Ztd.Filedat.Operations
import Ztd.Filedat.Merge
import Ztd.Filedat.MergeAlgebra
import Ztd.Filedat.Growth
import Ztd.Filedat.Stream
import Ztd.Filedat.Scanner
import Ztd.Filedat.Comments
import Ztd.Filedat.Parser
import Ztd.Filedat.History
import Ztd.Filedat.Quotes
import Ztd.Filedat.Brackets
import Ztd.Filedat.Reading
import Ztd.Filedat.Indices
import Ztd.Filedat.Stripping
import Ztd.Filedat.Grammar
import Ztd.Filedat.Scanning
import Ztd.Filedat.Nesting
import Ztd.Filedat.Agreement
import Ztd.Filedat.Values
import Ztd.Filedat.Loops
import Ztd.Filedat.Bounded
import Ztd.Filedat.Documents
import Ztd.Filedat.Sizes
import Ztd.Filedat.Meaning
import Ztd.Filedat.Overread
import Ztd.Filedat.Reached
import Ztd.Filedat.Endings
import Ztd.Filedat.Closing
import Ztd.Filedat.Matching
import Ztd.Filedat.Nodes
import Ztd.Filedat.Denote
import Ztd.Filedat.Apart
import Ztd.Filedat.Import
import Ztd.Filedat.NodeComments
import Ztd.Filedat.Holes
import Ztd.Filedat.Backslashes
import Ztd.Filedat.QuotedValues
import Ztd.Filedat.Flat
import Ztd.Filedat.Placed
import Ztd.Filedat.Alike
import Ztd.Filedat.Culprit
import Ztd.Filedat.Locating
import Ztd.Filedat.Counting
import Ztd.Filedat.Offsets
import Ztd.Filedat.Blame
import Ztd.Filedat.Assign
import Ztd.Filedat.Files
import Ztd.Filedat.Memory
import Ztd.Filedat.Ownership
import Ztd.Filedat.Copying
import Ztd.Filedat.Editing
import Ztd.Filedat.Combining
import Ztd.Filedat.Building
import Ztd.Filedat.References
import Ztd.Filedat.Programs
import Ztd.Filedat.Execution
import Ztd.Filedat.Safety
import Ztd.Filedat.Joining
import Ztd.Filedat.Stored
import Ztd.Filedat.Format
import Ztd.Filedat.Export
import Ztd.Filedat.Parsed
import Ztd.Filedat.Keys
import Ztd.Filedat.Fields
import Ztd.Filedat.Spaces
import Ztd.Filedat.Lines
import Ztd.Filedat.Sweep
import Ztd.Socket.Basic
import Ztd.Socket.Link
import Ztd.Socket.Background
import Ztd.Shell.Basic
import Ztd.Shell.Interleaving
import Ztd.Shell.Waiting
import Ztd.Options.Basic
import Ztd.Options.Process
import Ztd.Options.Scan
import Ztd.Options.Refinement
import Ztd.Options.Letters
import Ztd.Options.Groups
import Ztd.Options.DoubleDash
import Ztd.Options.Canon
import Ztd.Options.Stopping
import Ztd.Options.Runs
import Ztd.Options.Wrapping
import Ztd.Options.Spelling
import Ztd.Color.Basic
import Ztd.Color.Lookup
