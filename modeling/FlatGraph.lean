import FlatGraph.Text.Hexadecimal
import FlatGraph.Fault
import FlatGraph.Bytes.Word
import FlatGraph.Bytes.Varint
import FlatGraph.Bytes.Digest
import FlatGraph.Number.Binary64
import FlatGraph.Number.Total
import FlatGraph.Container.BitSet
import FlatGraph.Container.ClaimSet
import FlatGraph.Container.FrontierQueue
import FlatGraph.Container.Partition
import FlatGraph.Graph
import FlatGraph.Format.Flags
import FlatGraph.Format.Record
import FlatGraph.Format.Header
import FlatGraph.Statistics
import FlatGraph.Written.Positions
import FlatGraph.Written.Layout
import FlatGraph.Written.Chain
import FlatGraph.Written.File
import FlatGraph.Image.Section
import FlatGraph.Image.IdIndex
import FlatGraph.Image.Chain
import FlatGraph.Image.Basic
import FlatGraph.Image.Parse
import FlatGraph.Search.Adjacency
import FlatGraph.Search.Breadth
import FlatGraph.Search.Depth
import FlatGraph.Search.ShortestPath
import FlatGraph.Search.Component
import FlatGraph.Search.Level
import FlatGraph.Image.Analysis
import FlatGraph.Session.Lock
import FlatGraph.Session.Pathname
import FlatGraph.Session.Directory
import FlatGraph.Session.Store
import FlatGraph.Session.Foreign
import FlatGraph.Session.Basic
import FlatGraph.Session.Run
import FlatGraph.Proofs.Container.BitSet
import FlatGraph.Proofs.Container.FrontierQueue
import FlatGraph.Proofs.Container.Partition
import FlatGraph.Proofs.Bytes.Placement
import FlatGraph.Proofs.Bytes.Slice
import FlatGraph.Proofs.Bytes.Varint
import FlatGraph.Proofs.Bytes.WordVarint
import FlatGraph.Proofs.Format.Record
import FlatGraph.Proofs.Image.Threading
import FlatGraph.Proofs.Image.Chain
import FlatGraph.Proofs.Image.Identifiers
import FlatGraph.Proofs.Image.Format
import FlatGraph.Proofs.Written.Positions
import FlatGraph.Proofs.Written.Threads
import FlatGraph.Proofs.Image.Entries
import FlatGraph.Proofs.Written.Payloads
import FlatGraph.Proofs.Written.Layout
import FlatGraph.Proofs.Written.Sections
import FlatGraph.Proofs.Written.Records
import FlatGraph.Proofs.Written.Accepted
import FlatGraph.Proofs.Image.Adjacency
import FlatGraph.Proofs.Written.RoundTrip
import FlatGraph.Proofs.Search.Distance
import FlatGraph.Proofs.Search.Claims
import FlatGraph.Proofs.Search.Levels
import FlatGraph.Proofs.Search.Queue
import FlatGraph.Proofs.Search.Parallel
import FlatGraph.Proofs.Image.Lookup
import FlatGraph.Proofs.Image.Sections
import FlatGraph.Proofs.Image.Payloads
import FlatGraph.Proofs.Number.Binary64
import FlatGraph.Proofs.Statistics.Components
import FlatGraph.Proofs.Container.Classes
import FlatGraph.Proofs.Container.Members
import FlatGraph.Proofs.Statistics.Counts
import FlatGraph.Proofs.Statistics.Meaning
import FlatGraph.Proofs.Image.Analysis
import FlatGraph.Proofs.Written.Statistics
import FlatGraph.Proofs.Image.Alike
import FlatGraph.Proofs.Written.Capacity
import FlatGraph.Proofs.Written.Rewrite
import FlatGraph.Proofs.Written.Relabel
import FlatGraph.Proofs.Written.Validity
import FlatGraph.Proofs.Written.Draft
import FlatGraph.Proofs.Written.Tiling
import FlatGraph.Proofs.Written.Altered
import FlatGraph.Proofs.Written.Options
import FlatGraph.Proofs.Search.Reach
import FlatGraph.Proofs.Search.Tree
import FlatGraph.Proofs.Search.Route
import FlatGraph.Proofs.Search.Walk
import FlatGraph.Proofs.Search.Frames
import FlatGraph.Proofs.Search.Sweeps
import FlatGraph.Proofs.Search.Roots
import FlatGraph.Proofs.Search.Components
import FlatGraph.Proofs.Search.Branches
import FlatGraph.Proofs.Session.Directory
import FlatGraph.Proofs.Session.Store
import FlatGraph.Proofs.Session.Steps
import FlatGraph.Proofs.Session.Files
import FlatGraph.Proofs.Session.Answers
import FlatGraph.Proofs.Session.Message
