import LearnNetlib.Foundations.ShiftRegister
import LearnNetlib.Foundations.Base128
import LearnNetlib.Foundations.Runs
import LearnNetlib.Foundations.Loops
import LearnNetlib.Foundations.SortedCursor
import LearnNetlib.Base.Bytes
import LearnNetlib.Base.Status
import LearnNetlib.Base.Coding
import LearnNetlib.Base.Files
import LearnNetlib.Hash.Crc32c
import LearnNetlib.Io.InputBuffer
import LearnNetlib.Io.ReadVarint32
import LearnNetlib.Io.InputStream
import LearnNetlib.Io.BufferedInputStream
import LearnNetlib.Io.PartialReads
import LearnNetlib.Io.ZlibInputStream
import LearnNetlib.Io.ZlibTermination
import LearnNetlib.Io.ZlibOutputBuffer
import LearnNetlib.Table.Options
import LearnNetlib.Table.Format
import LearnNetlib.Table.Iterator
import LearnNetlib.Table.Block
import LearnNetlib.Table.BlockSafety
import LearnNetlib.Table.BlockBuilder
import LearnNetlib.Table.BlockCursor
import LearnNetlib.Table.TableBuilder
import LearnNetlib.Table.Checksum
import LearnNetlib.Table.BuilderLog
import LearnNetlib.Table.Layout
import LearnNetlib.Table.BuilderRuns
import LearnNetlib.Table.TwoLevelIterator
import LearnNetlib.Table.Table
import LearnNetlib.Table.TableCursor
import LearnNetlib.Foundations.OrderedStore
import LearnNetlib.Foundations.Frontier
import LearnNetlib.Foundations.Numeral
import LearnNetlib.Base.StringEncode
import LearnNetlib.Log.Keys
import LearnNetlib.Log.LeveldbDatabase
import LearnNetlib.Log.DatabaseRuns
import LearnNetlib.Log.Database
import LearnNetlib.Io.ZlibOutputErrors
import LearnNetlib.Thread.SimpleThreadPool
import LearnNetlib.Thread.PoolShutdown
import LearnNetlib.Thread.CostModel
import LearnNetlib.Thread.DeviceThreadPool
import LearnNetlib.Thread.Barrier
import LearnNetlib.Thread.ParallelFor
import LearnNetlib.Server.HandlerContext
import LearnNetlib.Server.RequestReader
import LearnNetlib.Server.ResponseWriter
import LearnNetlib.Foundations.SumTree
import LearnNetlib.Random.WeightedPicker
import LearnNetlib.Random.PhiloxRandom
import LearnNetlib.Foundations.EditDistance
import LearnNetlib.Gtl.EditDistance
import LearnNetlib.Foundations.Heap
import LearnNetlib.Gtl.TopN
import LearnNetlib.Foundations.ObjectStorage
import LearnNetlib.Gtl.InlinedVector
import LearnNetlib.Gtl.InlinedVectorOps
import LearnNetlib.Gtl.InlinedVectorRuns
import LearnNetlib.Gtl.InlinedVectorAlias
import LearnNetlib.Base.Varint
import LearnNetlib.Table.BlockRoundTrip
import LearnNetlib.Table.TableLookup
import LearnNetlib.Log.Scans
import LearnNetlib.Io.ReadLines
import LearnNetlib.Foundations.LexicalPath
import LearnNetlib.Io.Path
import LearnNetlib.Io.CleanPath
import LearnNetlib.Io.CleanPathRuns
import LearnNetlib.Platform.Uri
import LearnNetlib.Foundations.BreadthFirst
import LearnNetlib.Io.SplitPath
import LearnNetlib.Platform.FileSystem
import LearnNetlib.Platform.CreateDirectories
import LearnNetlib.Platform.DeleteDirectories
import LearnNetlib.Platform.MatchingPaths
import LearnNetlib.Strings.Unescape
import LearnNetlib.Base.CType
import LearnNetlib.Strings.Escape
import LearnNetlib.Strings.Numbers
import LearnNetlib.Strings.FastToBuffer
import LearnNetlib.Strings.LeadingDigits
import LearnNetlib.Strings.Split
import LearnNetlib.Strings.HexString
import LearnNetlib.Strings.Base64
import LearnNetlib.Base.HexEncode
import LearnNetlib.Base.Utf8
import LearnNetlib.Ini.IniReader
import LearnNetlib.Base.Bitmap
import LearnNetlib.Base.Arena
import LearnNetlib.Base.ArenaRuns
import LearnNetlib.Base.RefCounted
import LearnNetlib.Base.ScopedRefptr
import LearnNetlib.Foundations.RejectionSampling
import LearnNetlib.Random.ExactUniformInt
import LearnNetlib.Random.RandomDistributions
import LearnNetlib.Foundations.PackedBits
import LearnNetlib.Foundations.SpanPool
import LearnNetlib.Random.SimplePhilox
import LearnNetlib.Foundations.AliasTable
import LearnNetlib.Random.DistributionSampler
import LearnNetlib.Base.Histogram
import LearnNetlib.Base.Percentile
import LearnNetlib.Foundations.Quantile
import LearnNetlib.Foundations.CheckedInt
import LearnNetlib.Base.MathUtil
import LearnNetlib.Server.ConnectionHandler
import LearnNetlib.Table.IndexKeys
import LearnNetlib.Base.ArenaRemaining
import LearnNetlib.Thread.IndexOverflow
import LearnNetlib.Foundations.DecimalRounding
import LearnNetlib.Strings.HumanReadable
