import Coherent.Bigheap
import Coherent.BigheapFree
import Coherent.BigheapRun
import Coherent.Bio
import Coherent.BioRun
import Coherent.BlockMap
import Coherent.Can
import Coherent.Clgfx
import Coherent.Clist
import Coherent.Compress
import Coherent.CompressBits
import Coherent.CompressRun
import Coherent.ConstFold
import Coherent.Contents
import Coherent.CoreGrow
import Coherent.CorePack
import Coherent.CoreQueue
import Coherent.CoreSwap
import Coherent.Coverage
import Coherent.Crypt
import Coherent.CryptDes
import Coherent.Ctime
import Coherent.Damage
import Coherent.Daylight
import Coherent.DiffEd
import Coherent.DiffScript
import Coherent.DiskPy
import Coherent.Dumpvol
import Coherent.Dumpwalk
import Coherent.Ed
import Coherent.EventRing
import Coherent.Exstack
import Coherent.FastPath
import Coherent.FaultWrite
import Coherent.FileIo
import Coherent.FileMap
import Coherent.FileRun
import Coherent.FileTree
import Coherent.FoldArith
import Coherent.FoldPasses
import Coherent.FreeChain
import Coherent.FreeInodes
import Coherent.FreeList
import Coherent.FreeRun
import Coherent.Freecount
import Coherent.Gate
import Coherent.Genfunc
import Coherent.Grep
import Coherent.Held
import Coherent.HrLock
import Coherent.HrMsg
import Coherent.HrReply
import Coherent.Icheck
import Coherent.Inode
import Coherent.InodeCodec
import Coherent.Interleave
import Coherent.Isqrt
import Coherent.Kalloc
import Coherent.Kermit
import Coherent.KermitPacket
import Coherent.KermitRun
import Coherent.Layers
import Coherent.Lib.Arena
import Coherent.Lib.Cells
import Coherent.Lib.Chunks
import Coherent.Lib.Complement
import Coherent.Lib.Delta
import Coherent.Lib.Feistel
import Coherent.Lib.Gregorian
import Coherent.Lib.Linked
import Coherent.Lib.Orbit
import Coherent.Lib.Probe
import Coherent.Lib.Radix
import Coherent.Lib.Ring
import Coherent.Lib.Run
import Coherent.Lib.Seqlock
import Coherent.Lib.StopWait
import Coherent.Lib.Twoway
import Coherent.Lib.UnionFind
import Coherent.Lib.Views
import Coherent.Lib.While
import Coherent.Lib.Wildcard
import Coherent.Lib.Words
import Coherent.Lib.WriteBack
import Coherent.Links
import Coherent.Mint
import Coherent.MintDiv
import Coherent.MintGcd
import Coherent.MintLong
import Coherent.MintRoot
import Coherent.MintText
import Coherent.Mkfs
import Coherent.Netbuild
import Coherent.Nets
import Coherent.Offline
import Coherent.Owner
import Coherent.OwnerRun
import Coherent.Paths
import Coherent.Pids
import Coherent.Pipe
import Coherent.PipeIo
import Coherent.Pnmatch
import Coherent.PnmatchEnds
import Coherent.Proc
import Coherent.Rebuild
import Coherent.Remount
import Coherent.Restor
import Coherent.RestorRun
import Coherent.Rotor
import Coherent.RunQueue
import Coherent.Session
import Coherent.Shellsort
import Coherent.Snapshot
import Coherent.Super
import Coherent.Tar
import Coherent.Timeout
import Coherent.Tty
import Coherent.TtyEdit
import Coherent.TtyErase
import Coherent.TtyRead
import Coherent.TtyWait
import Coherent.VelBack
import Coherent.VelFile
import Coherent.VelLine
import Coherent.VelObj
import Coherent.VelRound
import Coherent.Vellum
import Coherent.Winchester
import Coherent.Zedit
