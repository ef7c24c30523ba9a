import BtrfsPeek.Lib.Effect
import BtrfsPeek.Lib.Bytes
import BtrfsPeek.Lib.Records
import BtrfsPeek.Lib.Utf8
import BtrfsPeek.Lib.Decimal
import BtrfsPeek.Lib.Calendar
import BtrfsPeek.Lib.SearchTree
import BtrfsPeek.Lib.Paint
import BtrfsPeek.Lib.Process
import BtrfsPeek.Lib.Service
import BtrfsPeek.Lib.Duplex
import BtrfsPeek.Lib.Passes
import BtrfsPeek.Lib.Naming
import BtrfsPeek.Lib.SparseFile
import BtrfsPeek.Lib.Machine
import BtrfsPeek.Lib.Words
import BtrfsPeek.Lib.IndexMap
import BtrfsPeek.Lib.Failures
import BtrfsPeek.Lib.FileTree
import BtrfsPeek.Error
import BtrfsPeek.Crates
import BtrfsPeek.Time
import BtrfsPeek.Disk
import BtrfsPeek.Dev
import BtrfsPeek.Decompress
import BtrfsPeek.Codecs
import BtrfsPeek.Fs.Basic
import BtrfsPeek.Fs.Image
import BtrfsPeek.Fs.Walk
import BtrfsPeek.Fs.Tree
import BtrfsPeek.Fs.Read
import BtrfsPeek.Fs.Lookup
import BtrfsPeek.Fs.Open
import BtrfsPeek.Fs.Alike
import BtrfsPeek.Fs.Cache
import BtrfsPeek.Fs.Content
import BtrfsPeek.Fs.Pieces
import BtrfsPeek.Fs.Plan
import BtrfsPeek.Fs.Slice
import BtrfsPeek.Fs.Inside
import BtrfsPeek.Fs.Mirrors
import BtrfsPeek.Fs.Volume
import BtrfsPeek.Fs.WellFormed
import BtrfsPeek.Fs.Paths
import BtrfsPeek.Fs.Usable
import BtrfsPeek.Fs.Reach
import BtrfsPeek.Fs.Climb
import BtrfsPeek.Fs.Subvols
import BtrfsPeek.Fs.RootItems
import BtrfsPeek.Fs.Hashed
import BtrfsPeek.Fs.Records
import BtrfsPeek.Fs.Later
import BtrfsPeek.Fs.Reference
import BtrfsPeek.Fs.Expansion
import BtrfsPeek.Fs.Failures
import BtrfsPeek.Copy.Host
import BtrfsPeek.Copy.Copier
import BtrfsPeek.Copy.Names
import BtrfsPeek.Copy.Calls
import BtrfsPeek.Copy.Limits
import BtrfsPeek.Copy.Unix
import BtrfsPeek.Copy.Landing
import BtrfsPeek.Copy.Cat
import BtrfsPeek.Copy.Spelling
import BtrfsPeek.Copy.Find
import BtrfsPeek.Copy.Loops
import BtrfsPeek.Copy.Tree
import BtrfsPeek.Copy.Reads
import BtrfsPeek.Copy.Trails
import BtrfsPeek.Copy.Walks
import BtrfsPeek.Copy.Filters
import BtrfsPeek.Copy.Arrival
import BtrfsPeek.Copy.Standing
import BtrfsPeek.Copy.Orderly
import BtrfsPeek.Copy.Accounts
import BtrfsPeek.Copy.Failures
import BtrfsPeek.Commands
import BtrfsPeek.ExitCodes
import BtrfsPeek.Steady
import BtrfsPeek.Helper.Update
import BtrfsPeek.Helper.Partition
import BtrfsPeek.Helper.Install
import BtrfsPeek.Helper.Replies
import BtrfsPeek.Helper.Restart
import BtrfsPeek.Helper.Status
import BtrfsPeek.Helper.Updates
import BtrfsPeek.Helper.Protocol
import BtrfsPeek.Helper.Server
import BtrfsPeek.Helper.Client
import BtrfsPeek.Helper.Remote
import BtrfsPeek.Scan
import BtrfsPeek.Helper.Scanning
