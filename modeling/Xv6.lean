import Xv6.Mem.KallocSteps
import Xv6.Mem.HeapTable
import Xv6.Proc.Tree
import Xv6.Proc.AlarmInterval
import Xv6.Proc.Protect
import Xv6.Proc.Times
import Xv6.Proc.Reap
import Xv6.Fs.FlatStore
import Xv6.Fs.LinkCount
import Xv6.Fs.InodeTable
import Xv6.File.PipeWake
import Xv6.File.Refs
import Xv6.Dev.VirtioInv
import Xv6.Sched.EnterTime
import Xv6.Sched.Slices
import Xv6.Sched.MlfqPick
import Xv6.Sched.Pbs
import Xv6.Proc.Kill
import Xv6.File.Fileread
import Xv6.Fs.Directory
import Xv6.Fs.Contents
import Xv6.User.Ulib
import Xv6.User.Grep
