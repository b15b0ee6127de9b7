import Xv6Labs.Kit.Run
import Xv6Labs.Kit.Numbers
import Xv6Labs.Kit.Tickets
import Xv6Labs.Kit.Lcg
import Xv6Labs.Kit.Slots
import Xv6Labs.Kit.Threads
import Xv6Labs.Kit.Bytes
import Xv6Labs.Kit.Exec
import Xv6Labs.Kit.Client
import Xv6Labs.Kit.NameTree
import Xv6Labs.Sched.Proc
import Xv6Labs.Sched.Lottery
import Xv6Labs.Sched.Rand
import Xv6Labs.Sched.TicketTotal
import Xv6Labs.Sched.Shares
import Xv6Labs.Sched.Wrr
import Xv6Labs.Sched.WrrBound
import Xv6Labs.Ipc.Mbox
import Xv6Labs.Ipc.MboxTable
import Xv6Labs.Ipc.Receive
import Xv6Labs.Ipc.Games
import Xv6Labs.Ipc.Wait
import Xv6Labs.Ipc.Kill
import Xv6Labs.Life.Table
import Xv6Labs.Life.Places
import Xv6Labs.Life.Family
import Xv6Labs.Life.Reap
import Xv6Labs.Life.Born
import Xv6Labs.Life.Progress
import Xv6Labs.Ipc.Maze
import Xv6Labs.Ipc.MazeFaults
import Xv6Labs.Ipc.Args
import Xv6Labs.Ipc.Shm
import Xv6Labs.Ipc.ShmHeap
import Xv6Labs.Ipc.ShmLife
import Xv6Labs.Ipc.ShmExec
import Xv6Labs.Fs.Disk
import Xv6Labs.Fs.Bitmap
import Xv6Labs.Fs.Inode
import Xv6Labs.Fs.Forest
import Xv6Labs.Fs.Bmap
import Xv6Labs.Fs.Frees
import Xv6Labs.Fs.Itrunc
import Xv6Labs.Fs.Content
import Xv6Labs.Fs.Reach
import Xv6Labs.Fs.Refine
import Xv6Labs.Fs.Truncate
import Xv6Labs.Fs.Reclaim
import Xv6Labs.Fs.BlockMap
import Xv6Labs.Fs.FirstFit
import Xv6Labs.Fs.BlockSet
import Xv6Labs.Fs.Turns
import Xv6Labs.Fs.WriteLog
import Xv6Labs.Fs.WriteFits
import Xv6Labs.Fs.ShortWrite
import Xv6Labs.Fs.Itable
import Xv6Labs.Fs.ItableInv
import Xv6Labs.Fs.ItableSafe
import Xv6Labs.Sys.Inodes
import Xv6Labs.Sys.OnDisk
import Xv6Labs.Sys.Dir
import Xv6Labs.Sys.Sysfile
import Xv6Labs.Sys.Held
import Xv6Labs.Sys.Names
import Xv6Labs.Sys.Tree
import Xv6Labs.Sys.Create
import Xv6Labs.Sys.Calls
import Xv6Labs.Sys.Open
import Xv6Labs.Sys.Alike
import Xv6Labs.Sys.NameSpace
import Xv6Labs.Sys.Symlink
import Xv6Labs.Sys.Atomic
import Xv6Labs.Sys.Listing
import Xv6Labs.Sys.Seen
import Xv6Labs.Sys.OpenBalance
import Xv6Labs.Sys.Nofollow
