import Xv6.Lib.Trans
import Xv6.Proofs.LogCrash
import Xv6.Proofs.LogAdmit
import Xv6.Proofs.SchedPolicy
import Xv6.Proofs.RunTime
import Xv6.Proofs.Waitx
import Xv6.Proofs.ProcTable
import Xv6.Proofs.Kill
import Xv6.Proofs.PipeWakeup
import Xv6.Proofs.FtableRefs
import Xv6.Proofs.BlockRuns
import Xv6.Proofs.PageOwners
import Xv6.Proofs.Sleeplock
import Xv6.Proofs.CommitAlone
import Xv6.Proofs.Ide
import Xv6.Proofs.RoundRobin
import Xv6.Proofs.FileWrite
import Xv6.Proofs.Bio
import Xv6.Proofs.IcacheRefs
import Xv6.Proofs.VmMap
import Xv6.Proofs.UserMemory
import Xv6.Proofs.UserSpace
import Xv6.Proofs.Fork
import Xv6.Proofs.ExecArgs
import Xv6.Proofs.ExecAtomic
import Xv6.Proofs.WriteLog
import Xv6.Proofs.Namex
import Xv6.Proofs.UserPointers
import Xv6.Proofs.Setpriority
import Xv6.Proofs.Accounting
import Xv6.Proofs.Cli
import Xv6.Proofs.FileChunks
import Xv6.Proofs.MkfsReads
import Xv6.Proofs.Sbrk
import Xv6.Proofs.Grep
import Xv6.Proofs.Printint
import Xv6.Proofs.Mp
import Xv6.Proofs.Console
