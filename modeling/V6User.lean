import V6User.Base.QuoteScan
import V6User.Base.Fuel
import V6User.Base.Segment
import V6User.Base.Walk
import V6User.Base.Extent
import V6User.Base.Terminal
import V6User.Base.TwoSided
import V6User.Base.FdTable
import V6User.Base.Transducer
import V6User.Base.Slots
import V6User.Base.Splitter
import V6User.Base.Latest
import V6User.Malloc.Pool
import V6User.Malloc.Heap
import V6User.Malloc.Refine
import V6User.Malloc.Search
import V6User.Malloc.Runs
import V6User.Shell.Token
import V6User.Shell.Tokens
import V6User.Shell.Quoting
import V6User.Shell.Command
import V6User.Shell.ParserFuel
import V6User.Shell.Grammar
import V6User.Shell.Sound
import V6User.Shell.Complete
import V6User.Shell.Nulterminate
import V6User.Shell.Parsecmd
import V6User.Shell.Env
import V6User.Shell.Expand
import V6User.Shell.ExpandQuoting
import V6User.Shell.RunLine
import V6User.Shell.Sources
import V6User.Shell.LineBuf
import V6User.Shell.LineDisplay
import V6User.Shell.History
import V6User.Shell.Completion
import V6User.Shell.Readline
import V6User.Shell.Redirections
import V6User.Shell.Runcmd
import V6User.Shell.Shape
import V6User.Shell.Operators
import V6User.Shell.Pieces
import V6User.Shell.Structure
import V6User.Shell.Words
import V6User.Shell.Builtins
import V6User.Shell.EnvTable
import V6User.Shell.Assignments
import V6User.Shell.EnvMap
import V6User.Shell.Envp
import V6User.Base.Bounded
import V6User.Printf.Format
import V6User.Printf.Items
import V6User.Printf.Vprintf
import V6User.Printf.Vsnprintf
import V6User.Printf.Agree
import V6User.Base.CInt
import V6User.Tools.Seek
import V6User.Base.Bytes
import V6User.Mkfs.Inode
import V6User.Mkfs.File
import V6User.Mkfs.Files
import V6User.Mkfs.Calls
import V6User.Mkfs.Bitmap
import V6User.Mkfs.Sectors
import V6User.Mkfs.Layout
import V6User.Base.Effect
import V6User.Vfs.Path
import V6User.Vfs.Fs
import V6User.Vfs.Change
import V6User.Vfs.Calls
import V6User.Fsutil.Paths
import V6User.Vfs.Tree
import V6User.Vfs.Lookup
import V6User.Vfs.Unlink
import V6User.Fsutil.Remove
import V6User.Fsutil.Copy
import V6User.Fsutil.CopyVia
import V6User.Vfs.Onward
import V6User.Vfs.SameTree
import V6User.Fsutil.CopyInside
import V6User.Printf.Truncate
import V6User.Tools.Capture
import V6User.Tools.Init
import V6User.Base.Lines
import V6User.Tools.Grep
import V6User.Fsutil.RemoveEnds
import V6User.Base.Wrapping
import V6User.Tools.Top
import V6User.Base.Process
import V6User.Tools.ConsoleRecord
import V6User.Tools.Kprofile
import V6User.Base.Threads
import V6User.Wakestorm.Program
import V6User.Wakestorm.Closed
import V6User.Wakestorm.Waiters
import V6User.Wakestorm.Stop
import V6User.Printf.IsoInteger
import V6User.Tools.GrepLanguage
import V6User.Base.Numeral
import V6User.Tools.ParseNum
import V6User.Tools.Hexline
import V6User.Base.Buckets
import V6User.Tools.EscapedQuoted
import V6User.Tools.UserpcLine
import V6User.Tools.UserpcAttribute
import V6User.Tools.UserpcRead
import V6User.Tools.KprofileClock
import V6User.Tools.ConsoleBatch
import V6User.Wakestorm.Barrier
import V6User.Base.Cut
import V6User.Shell.ExpandFlag
import V6User.Shell.HistoryBrowse
import V6User.Tools.Dump
import V6User.Tools.ParseIp4
import V6User.Shell.PathExec
import V6User.Shell.ReadKey
import V6User.Fsutil.CopyContent
import V6User.Fsutil.CopyTree
import V6User.Vfs.Reached
import V6User.Fsutil.CopyKeeps
import V6User.Vfs.Below
import V6User.Fsutil.Move
import V6User.Fsutil.MoveKeeps
import V6User.Tools.Startup
import V6User.Tools.Passwd
import V6User.Base.Distinct
import V6User.Shell.Candidates
import V6User.Fsutil.Target
import V6User.Malloc.Confluence
import V6User.Base.Flat
import V6User.Ulib.Memory
import V6User.Ulib.Compare
import V6User.Tools.Fbstat
import V6User.Base.Rank
import V6User.Wakestorm.Select
import V6User.Tools.Tcpstress
import V6User.Tools.HttpDownload
import V6User.Base.Offsets
import V6User.Tools.DnsResponse
import V6User.Base.Bisect
import V6User.Tools.Hoverprobe
import V6User.Tools.Dxgprobe
import V6User.Base.Script
import V6User.Tools.Keyinject
import V6User.Tools.Gpucorevalidate
import V6User.Tools.Find
import V6User.Tools.DnsQuery
import V6User.Base.Replace
import V6User.Shell.RuncmdRuns
import V6User.Base.Pipes
import V6User.Base.Sieve
import V6User.Tools.Primes
import V6User.Wakestorm.Stalls
import V6User.Fsutil.Rm
import V6User.Fsutil.Cp
import V6User.Tools.Dd
import V6User.Tools.DnsPair
import V6User.Tools.TopProc
import V6User.Tools.NetworkConf
import V6User.Base.Ranking
import V6User.Base.Tally
import V6User.Tools.RoleSummary
import V6User.Tools.UserpcCollect
