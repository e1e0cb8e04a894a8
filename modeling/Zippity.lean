import Zippity.Framework.Exec
import Zippity.Framework.Async
import Zippity.Framework.System
import Zippity.Framework.ReadBuf
import Zippity.Framework.Wire
import Zippity.Framework.Zip64
import Zippity.Framework.Segments
import Zippity.Framework.UnixPath
import Zippity.Framework.Utf8Lossy
import Zippity.Framework.WordFields
import Zippity.Structs
import Zippity.EntryData
import Zippity.CrcReader
import Zippity.Reader.ReadState
import Zippity.Reader.Chunk
import Zippity.Reader.Entry
import Zippity.Reader.Read
import Zippity.Layout
import Zippity.Reader.Reader
import Zippity.Reader.System
import Zippity.Reader.HeaderSpec
import Zippity.Reader.EntrySpec
import Zippity.Reader.Standing
import Zippity.Reader.LoopSpec
import Zippity.Reader.SeekSpec
import Zippity.Reader.Accounting
import Zippity.Reader.Turn
import Zippity.Reader.Call
import Zippity.Reader.Pool
import Zippity.Reader.Sources
import Zippity.Reader.Copies
import Zippity.Reader.RunSpec
import Zippity.Reader.Slot
import Zippity.Framework.IndexMap
import Zippity.Builder
import Zippity.BuilderSpec
import Zippity.Datetime
import Zippity.Archive
import Zippity.Session
import Zippity.Bytes
import Zippity.ActixWeb
import Zippity.Properties.Layout
import Zippity.Properties.Crcs
import Zippity.Properties.Delivery
import Zippity.Properties.RoundTrip
import Zippity.Reader.Hardened
import Zippity.Reader.Attempts
import Zippity.Properties.Sizes
import Zippity.Properties.Landing
import Zippity.Properties.Late
import Zippity.Properties.Passing
import Zippity.Properties.Hostile
import Zippity.Properties.Tell
import Zippity.Properties.Errors
import Zippity.Properties.KnownCrcs
import Zippity.Properties.Futures
import Zippity.Properties.Safety
import Zippity.Properties.Copies
import Zippity.Reader.Opening
import Zippity.Properties.Opening
import Zippity.BuilderPool
import Zippity.Properties.Totals
import Zippity.Properties.Seeks
import Zippity.Properties.Mismatches
import Zippity.Properties.Progress
import Zippity.Properties.Polling
import Zippity.Properties.Http
import Zippity.FilesystemEntry
import Zippity.FilesystemTree
import Zippity.FilesystemWalk
import Zippity.Properties.Filesystem
import Zippity.Properties.Datetimes
import Zippity.Properties.Cursors
import Zippity.Properties.Hashing
import Zippity.Properties.Staging
import Zippity.Properties.RootNames
import Zippity.Properties.Wakeups
import Zippity.Properties.ReaderFiles
import Zippity.Properties.Traversals
import Zippity.Properties.CachedCrcs
import Zippity.Properties.EditedBuilders
import Zippity.Properties.Integrity
import Zippity.Properties.Retries
import Zippity.Properties.Streams
import Zippity.Properties.Serving
import Zippity.Properties.Trees
