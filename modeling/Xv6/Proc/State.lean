/-
  Xv6.Proc.State — process states and slots of the process table
  (`kernel/proc.h`).
-/
import Xv6.Param

namespace Xv6

/-- `enum procstate` -/
inductive ProcState where
  | UNUSED
  | USED
  | SLEEPING
  | RUNNABLE
  | RUNNING
  | ZOMBIE
  deriving DecidableEq, Repr

/-- A slot of `struct proc proc[NPROC]`; a `struct proc *` is the slot it
points to. -/
abbrev Slot := Fin NPROC

/-- `initproc`: `userinit` runs first and takes the first slot. -/
def initproc : Slot := 0

end Xv6
