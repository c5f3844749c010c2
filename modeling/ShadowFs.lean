import ShadowFs.CLib.CString
import ShadowFs.CLib.Decimal
import ShadowFs.CLib.Stream
import ShadowFs.CLib.Memory
import ShadowFs.Library.Run
import ShadowFs.Library.OrderedMap
import ShadowFs.Library.Links
import ShadowFs.Library.Blocks
import ShadowFs.Library.Frames
import ShadowFs.Library.Escaping
import ShadowFs.Library.LinearHash
import ShadowFs.Library.Ancestry
import ShadowFs.Tree.Record
import ShadowFs.Tree.Image
import ShadowFs.Tree.Users
import ShadowFs.Tree.Pointers
import ShadowFs.Persist.Parse
import ShadowFs.Persist.Reload
import ShadowFs.Persist.Decoding
import ShadowFs.Persist.Records
import ShadowFs.Persist.Chunks
import ShadowFs.Persist.Loader
import ShadowFs.Persist.RoundTrip
import ShadowFs.Persist.Settling
import ShadowFs.Persist.Malformed
import ShadowFs.Persist.Positions
import ShadowFs.Hash.Md5
import ShadowFs.Hash.Standard
import ShadowFs.Hash.Hexadecimal
import ShadowFs.Hash.Padding
import ShadowFs.Callbacks.Path
import ShadowFs.Callbacks.Operations
import ShadowFs.Callbacks.Specs
import ShadowFs.Callbacks.Names
import ShadowFs.Callbacks.Lookup
import ShadowFs.Callbacks.Existence
import ShadowFs.Callbacks.Terminator
import ShadowFs.Callbacks.Bounds
import ShadowFs.Callbacks.Slices
import ShadowFs.Callbacks.WriteBuffer
import ShadowFs.Callbacks.HashField
import ShadowFs.Callbacks.Create
import ShadowFs.System.Requests
import ShadowFs.System.Frame
import ShadowFs.System.Commute
import ShadowFs.System.Uniqueness
import ShadowFs.System.Keys
import ShadowFs.System.ShFile
import ShadowFs.System.Backing
import ShadowFs.System.Renaming
import ShadowFs.System.Stamps
import ShadowFs.System.Formats
import ShadowFs.System.Uninitialised
import ShadowFs.System.Listing
import ShadowFs.System.ReadBack
import ShadowFs.System.UserMap
import ShadowFs.System.Injection
import ShadowFs.System.Sessions
import ShadowFs.System.Cells
import ShadowFs.System.Memory
import ShadowFs.Fuse.Buffers
import ShadowFs.Fuse.Dirents
import ShadowFs.Fuse.Options
import ShadowFs.Fuse.Nodes
import ShadowFs.Fuse.NodeTables
import ShadowFs.Fuse.References
import ShadowFs.Fuse.NodeOperations
import ShadowFs.Fuse.PathBuffer
import ShadowFs.Fuse.Locks
import ShadowFs.Fuse.PathLocks
import ShadowFs.Fuse.LockedPaths
import ShadowFs.Fuse.Attempts
import ShadowFs.Fuse.NodeRuns
