import Zrt.Framework.GreedyBlocks
import Zrt.Framework.Runs
import Zrt.Framework.Cursors
import Zrt.Framework.FirstFit
import Zrt.MapReduce.Baskets
import Zrt.Memory.BitArray
import Zrt.Errno
import Zrt.Memory.Manager
import Zrt.Memory.Mappings
import Zrt.Nvram.ConfParser
import Zrt.Nvram.Lexer
import Zrt.Nvram.Records
import Zrt.Nvram.Lines
import Zrt.Nvram.Grammar
import Zrt.Nvram.Comments
import Zrt.Fs.ChannelsListing
import Zrt.Framework.SlotTable
import Zrt.Fs.OpenFiles
import Zrt.Fs.MemMount
import Zrt.Fs.FileSystem
import Zrt.Fs.Accounting
import Zrt.Fs.MemChanges
import Zrt.Fs.MemCalls
import Zrt.Fs.MemTree
import Zrt.Fs.MemWalk
import Zrt.Fs.MemDescriptors
import Zrt.Fs.MemSound
import Zrt.Fs.MemFrame
import Zrt.Fs.MemUnlink
import Zrt.Fs.MemRename
import Zrt.Fs.MemReaddir
import Zrt.Fs.MountRouting
import Zrt.Fs.TransparentMount
import Zrt.Memory.BrkArea
import Zrt.Framework.KWayMerge
import Zrt.Framework.Network
import Zrt.MapReduce.Dividers
import Zrt.MapReduce.EachToOther
import Zrt.MapReduce.Reducer
import Zrt.MapReduce.BalancedDividers
import Zrt.MapReduce.MapInput
import Zrt.MapReduce.MapNode
import Zrt.Helpers.BufferedIo
import Zrt.MapReduce.Packets
import Zrt.Framework.Refinement
import Zrt.Fs.FailedOpen
import Zrt.Fs.FileContents
import Zrt.Fs.Positions
import Zrt.Fs.DirectoryUnlink
import Zrt.Fs.LinkCounts
import Zrt.Fs.InodeIdentity
import Zrt.Nvram.Sections
import Zrt.Nvram.Args
import Zrt.Framework.Traces
import Zrt.Nvram.Fstab
import Zrt.MapReduce.Histograms
import Zrt.MapReduce.ItemBuffer
import Zrt.MapReduce.HistogramWire
import Zrt.Memory.Unmapping
import Zrt.Memory.Allocation
import Zrt.Memory.FileMapping
import Zrt.Memory.AvailablePages
import Zrt.Memory.PrologBreak
import Zrt.Nvram.ArgsBuffer
import Zrt.Nvram.Environment
import Zrt.Nvram.EnvArray
import Zrt.Helpers.ShortReads
import Zrt.Fs.DirectoryTable
import Zrt.Fs.ChannelsMount
import Zrt.Fs.ChannelItems
import Zrt.Fs.ChannelsSeek
import Zrt.Nvram.StoredRecords
import Zrt.Nvram.ParserCapacity
import Zrt.Nvram.SectionHandover
import Zrt.Fs.LowestHandle
import Zrt.Unpack.ParsePath
import Zrt.Unpack.MemDirectories
import Zrt.Unpack.ExtractEntry
import Zrt.Unpack.TarHeader
import Zrt.Unpack.UnpackTar
import Zrt.Fs.ChannelsArray
import Zrt.Fs.FileCalls
import Zrt.Fs.DataRuns
import Zrt.Fs.Ftruncate
import Zrt.Fs.AppendMode
import Zrt.Fs.DataBounds
import Zrt.Fs.LinkFrame
import Zrt.Fs.UseCounts
import Zrt.Helpers.StrToUint
import Zrt.Zcalls.CachedTime
import Zrt.Fs.PathWalks
import Zrt.Fs.DirentEngine
import Zrt.Nvram.LazyMount
import Zrt.Framework.Totals
import Zrt.Framework.Naming
import Zrt.MapReduce.Combining
import Zrt.MapReduce.SortedDividers
import Zrt.MapReduce.MapStreams
import Zrt.MapReduce.WholeJob
import Zrt.MapReduce.ChannelReducer
import Zrt.Networking.ChannelsConf
import Zrt.Networking.ChannelsConfReader
import Zrt.Fs.NameSpace
import Zrt.Fs.NameCalls
import Zrt.Fs.FuseMounting
import Zrt.Framework.NamingTrees
import Zrt.Fs.StoredFiles
import Zrt.Unpack.ImageTree
import Zrt.Unpack.DeployImage
