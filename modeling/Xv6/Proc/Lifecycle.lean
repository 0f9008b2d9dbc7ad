/-
  Xv6.Proc.Lifecycle — the life of processes: fork, exit, wait, waitx, sleep,
  wakeup and kill, in any interleaving (`kernel/proc.c`).

  Each process is a kernel thread with a program counter.  A step of a thread
  goes from one point where it takes or gives up `wait_lock` or a `p->lock`
  to the next: one turn of each loop over the process table is a step.
  `wait_lock` and the locks that are held from one step to another are part
  of the state.

  `born` and `births` number the processes in the order of their creation and
  `freed` collects the numbers of those that `wait` has freed; no step reads
  them.
-/
import Xv6.Proc.State
import Xv6.Lib.Runs

namespace Xv6

open Function (update)

/-! ## §1. The process table. -/

/-- A sleep channel: a process (in `wait`), or any other address. -/
inductive SleepChan where
  | proc (p : Slot)
  | other (addr : Nat)
  deriving DecidableEq, Repr

/-- The fields of `struct proc` these functions use; 0 is `none`. -/
structure Proc where
  state : ProcState
  chan : Option SleepChan
  killed : Bool
  xstate : BitVec 32
  pid : BitVec 32
  parent : Option Slot
  deriving DecidableEq, Repr

/-- Where a process is. -/
inductive Pc where
  /-- outside the functions below, or not yet or no longer running -/
  | run
  /-- in `sleep`, on a channel that is not a process -/
  | asleep
  /-- in the loop of `allocproc`, called by `fork` -/
  | forkScan (i : Nat)
  /-- `allocproc` has taken `np`; `np->lock` is held -/
  | forkFound (np : Slot)
  /-- about to set `np->parent` -/
  | forkParent (np : Slot)
  /-- about to set `np->state = RUNNABLE` -/
  | forkReady (np : Slot)
  /-- in the loop of `reparent` -/
  | reparent (status : BitVec 32) (i : Nat)
  /-- in the loop of `wakeup(initproc)` for slot `i` of that loop -/
  | reparentWake (status : BitVec 32) (i j : Nat)
  /-- in the loop of `wakeup(p->parent)` -/
  | exitWake (status : BitVec 32) (chan : Option SleepChan) (j : Nat)
  /-- about to become a zombie -/
  | exitZombie (status : BitVec 32)
  /-- a zombie still on its kernel stack; `p->lock` is held -/
  | zombie
  /-- in the loop of `wait` or `waitx` -/
  | waitScan (i : Nat) (havekids : Bool)
  /-- at the call of `sleep(p, &wait_lock)` -/
  | waitSleep
  /-- in that call, with `p->lock` held and `wait_lock` released -/
  | sleepLocked
  /-- in the `sched()` of that call -/
  | waiting
  /-- about to acquire `wait_lock` again -/
  | waitLock
  /-- in the loop of `kill` -/
  | kill (pid : BitVec 32) (i : Nat)
  deriving DecidableEq, Repr

/-- `wait_lock` is held. -/
def Pc.holdsWait : Pc → Bool
  | .reparent .. | .reparentWake .. | .exitWake .. | .exitZombie _ | .waitScan .. | .waitSleep =>
    true
  | _ => false

/-- The `p->lock` that process `p` holds. -/
def Pc.holdsLock (p : Slot) : Pc → Option Slot
  | .forkFound np => some np
  | .zombie | .sleepLocked => some p
  | _ => none

/-- Some spinlock is held, so interrupts are off. -/
def Pc.interruptsOff (p : Slot) (pc : Pc) : Bool := pc.holdsWait || (pc.holdsLock p).isSome

/-- Why a step does not happen. -/
inductive ProcFault where
  | disabled
  | panic (msg : String)
  deriving DecidableEq, Repr

/-- What a step returns. -/
abbrev ProcResult := Except ProcFault

/-- The process table, its locks, and where each process is. -/
structure ProcSys where
  proc : Slot → Proc
  /-- who holds `p->lock` from one step to the next -/
  lock : Slot → Option Slot
  wait_lock : Option Slot
  nextpid : BitVec 32
  pc : Slot → Pc
  births : Nat
  born : Slot → Nat
  freed : List Nat

namespace ProcSys

/-! ## §2. What the steps write. -/

/-- A slot changes. -/
def setProc (s : ProcSys) (p : Slot) (x : Proc) : ProcSys :=
  { s with proc := update s.proc p x }

/-- A state changes. -/
def setState (s : ProcSys) (p : Slot) (state : ProcState) : ProcSys :=
  s.setProc p { s.proc p with state := state }

/-- A parent changes. -/
def setParent (s : ProcSys) (p : Slot) (parent : Option Slot) : ProcSys :=
  s.setProc p { s.proc p with parent := parent }

/-- A process comes to another place. -/
def goto (s : ProcSys) (p : Slot) (pc : Pc) : ProcSys :=
  { s with pc := update s.pc p pc }

/-- `acquire(&q->lock)` by `p`, to be held after this step -/
def acquire (s : ProcSys) (p q : Slot) : ProcSys :=
  { s with lock := update s.lock q (some p) }

/-- `release(&q->lock)` -/
def release (s : ProcSys) (q : Slot) : ProcSys := { s with lock := update s.lock q none }

/-- `acquire(&wait_lock)` by `p` -/
def acquireWait (s : ProcSys) (p : Slot) : ProcSys := { s with wait_lock := some p }

/-- `release(&wait_lock)` -/
def releaseWait (s : ProcSys) : ProcSys := { s with wait_lock := none }

/-- `freeproc(p)` -/
def freeproc (s : ProcSys) (p : Slot) : ProcSys := s.setProc p ⟨.UNUSED, none, false, 0, 0, none⟩

/-- `p->pid = allocpid(); p->state = USED` -/
def allocpid (s : ProcSys) (p : Slot) : ProcSys :=
  { s with
    proc := update s.proc p { s.proc p with pid := s.nextpid, state := .USED }
    nextpid := s.nextpid + 1
    born := update s.born p s.births
    births := s.births + 1 }

/-! ## §3. The loops. -/

/-- One turn of the loop of `wakeup(chan)`, called by `me`. -/
def wakeupTurn (s : ProcSys) (me q : Slot) (chan : Option SleepChan) : ProcResult ProcSys :=
  if q = me then .ok s
  else if s.lock q ≠ none then .error .disabled
  else if (s.proc q).state = .SLEEPING ∧ (s.proc q).chan = chan then .ok (s.setState q .RUNNABLE)
  else .ok s

/-- One turn of the loop of `allocproc`. -/
def allocTurn (s : ProcSys) (p q : Slot) (i : Nat) : ProcResult ProcSys :=
  if s.lock q ≠ none then .error .disabled
  else if (s.proc q).state = .UNUSED then
    .ok (((s.allocpid q).acquire p q).goto p (.forkFound q))
  else .ok (s.goto p (.forkScan (i + 1)))

/-- One turn of the loop of `reparent(p)`. -/
def reparentTurn (s : ProcSys) (p q : Slot) (status : BitVec 32) (i : Nat) : ProcSys :=
  if (s.proc q).parent = some p then
    (s.setParent q (some initproc)).goto p (.reparentWake status i 0)
  else s.goto p (.reparent status (i + 1))

/-- One turn of the loop of `wait` and `waitx`; `copied` is the result of
`copyout`. -/
def waitTurn (s : ProcSys) (p q : Slot) (i : Nat) (havekids copied : Bool) : ProcResult ProcSys :=
  if (s.proc q).parent = some p then
    if s.lock q ≠ none then .error .disabled
    else if (s.proc q).state = .ZOMBIE then
      if copied then
        .ok ({ s.freeproc q with freed := s.born q :: s.freed }.releaseWait.goto p .run)
      else .ok (s.releaseWait.goto p .run)
    else .ok (s.goto p (.waitScan (i + 1) true))
  else .ok (s.goto p (.waitScan (i + 1) havekids))

/-- One turn of the loop of `kill(pid)`. -/
def killTurn (s : ProcSys) (p q : Slot) (pid : BitVec 32) (i : Nat) : ProcResult ProcSys :=
  if s.lock q ≠ none then .error .disabled
  else if (s.proc q).pid = pid then
    .ok ((s.setProc q { s.proc q with
      killed := true
      state := if (s.proc q).state = .SLEEPING then .RUNNABLE else (s.proc q).state }).goto p .run)
  else .ok (s.goto p (.kill pid (i + 1)))

/-- The next step of `p`; `ok` is false if an allocation or a copy fails in
it. -/
def next (s : ProcSys) (p : Slot) (ok : Bool) : ProcResult ProcSys :=
  match s.pc p with
  | .forkScan i => if h : i < NPROC then s.allocTurn p ⟨i, h⟩ i else .ok (s.goto p .run)
  | .forkFound np =>
    if ok then .ok ((s.release np).goto p (.forkParent np))
    else .ok (((s.freeproc np).release np).goto p .run)
  | .forkParent np =>
    if s.wait_lock = none then .ok ((s.setParent np (some p)).goto p (.forkReady np))
    else .error .disabled
  | .forkReady np =>
    if s.lock np ≠ none then .error .disabled
    else .ok ((s.setState np .RUNNABLE).goto p .run)
  | .reparent status i =>
    if h : i < NPROC then .ok (s.reparentTurn p ⟨i, h⟩ status i)
    else .ok (s.goto p (.exitWake status ((s.proc p).parent.map .proc) 0))
  | .reparentWake status i j =>
    if h : j < NPROC then do
      let s ← s.wakeupTurn p ⟨j, h⟩ (some (.proc initproc))
      .ok (s.goto p (.reparentWake status i (j + 1)))
    else .ok (s.goto p (.reparent status (i + 1)))
  | .exitWake status chan j =>
    if h : j < NPROC then do
      let s ← s.wakeupTurn p ⟨j, h⟩ chan
      .ok (s.goto p (.exitWake status chan (j + 1)))
    else .ok (s.goto p (.exitZombie status))
  | .exitZombie status =>
    if s.lock p ≠ none then .error .disabled
    else
      .ok (((s.setProc p { s.proc p with
        xstate := status, state := .ZOMBIE }).acquire p p).releaseWait.goto p .zombie)
  | .waitScan i havekids =>
    if h : i < NPROC then s.waitTurn p ⟨i, h⟩ i havekids ok
    else if !havekids || (s.proc p).killed then .ok (s.releaseWait.goto p .run)
    else .ok (s.goto p .waitSleep)
  | .waitSleep =>
    if s.lock p ≠ none then .error .disabled
    else .ok ((s.acquire p p).releaseWait.goto p .sleepLocked)
  | .sleepLocked =>
    .ok (((s.setProc p { s.proc p with
      chan := some (.proc p), state := .SLEEPING }).release p).goto p .waiting)
  | .waitLock =>
    if s.wait_lock = none then .ok ((s.acquireWait p).goto p (.waitScan 0 false))
    else .error .disabled
  | .kill pid i => if h : i < NPROC then s.killTurn p ⟨i, h⟩ pid i else .ok (s.goto p .run)
  | _ => .error .disabled

/-! ## §4. The system. -/

/-- The steps of processes and schedulers. -/
inductive ProcStep where
  /-- a scheduler switches to `p` -/
  | dispatch (p : Slot)
  | yield (p : Slot)
  /-- a scheduler gets `p->lock` back from `p`, which has exited -/
  | retire (p : Slot)
  /-- `sleep(chan, lk)` on a channel that is not a process -/
  | sleep (p : Slot) (addr : Nat)
  /-- a turn of `wakeup(chan)` on such a channel -/
  | wakeup (addr : Nat) (q : Slot)
  | setkilled (p : Slot)
  | fork (p : Slot)
  | exit (p : Slot) (status : BitVec 32)
  /-- `wait` or `waitx` -/
  | wait (p : Slot)
  | kill (p : Slot) (pid : BitVec 32)
  | next (p : Slot) (ok : Bool)
  deriving DecidableEq, Repr

/-- What a process does first when it is switched to. -/
def resume (s : ProcSys) (p : Slot) : ProcSys :=
  match s.pc p with
  | .asleep => (s.setProc p { s.proc p with chan := none, state := .RUNNING }).goto p .run
  | .waiting => (s.setProc p { s.proc p with chan := none, state := .RUNNING }).goto p .waitLock
  | _ => s.setState p .RUNNING

/-- `p` runs outside the functions below. -/
def free (s : ProcSys) (p : Slot) : Prop := (s.proc p).state = .RUNNING ∧ s.pc p = .run

instance (s : ProcSys) (p : Slot) : Decidable (s.free p) := by
  unfold free
  infer_instance

/-- What a step does. -/
def step (s : ProcSys) : ProcStep → ProcResult ProcSys
  | .dispatch p =>
    if s.lock p = none ∧ (s.proc p).state = .RUNNABLE then .ok (s.resume p) else .error .disabled
  | .yield p =>
    if s.lock p = none ∧ (s.proc p).state = .RUNNING ∧ (s.pc p).interruptsOff p = false then
      .ok (s.setState p .RUNNABLE)
    else .error .disabled
  | .retire p =>
    if s.pc p = .zombie then .ok ((s.release p).goto p .run) else .error .disabled
  | .sleep p addr =>
    if s.free p ∧ s.lock p = none then
      .ok ((s.setProc p { s.proc p with
        chan := some (.other addr), state := .SLEEPING }).goto p .asleep)
    else .error .disabled
  | .wakeup addr q =>
    if s.lock q = none ∧ (s.proc q).state = .SLEEPING ∧ (s.proc q).chan = some (.other addr) then
      .ok (s.setState q .RUNNABLE)
    else .error .disabled
  | .setkilled p =>
    if s.free p ∧ s.lock p = none then .ok (s.setProc p { s.proc p with killed := true })
    else .error .disabled
  | .fork p => if s.free p then .ok (s.goto p (.forkScan 0)) else .error .disabled
  | .exit p status =>
    if s.free p then
      if p = initproc then .error (.panic "init exiting")
      else if s.wait_lock = none then .ok ((s.acquireWait p).goto p (.reparent status 0))
      else .error .disabled
    else .error .disabled
  | .wait p =>
    if s.free p ∧ s.wait_lock = none then .ok ((s.acquireWait p).goto p (.waitScan 0 false))
    else .error .disabled
  | .kill p pid => if s.free p then .ok (s.goto p (.kill pid 0)) else .error .disabled
  | .next p ok => if (s.proc p).state = .RUNNING then s.next p ok else .error .disabled

/-- After `userinit`: `init` has pid 1. -/
def boot : ProcSys where
  proc := update (fun _ => ⟨.UNUSED, none, false, 0, 0, none⟩) initproc
    ⟨.RUNNABLE, none, false, 0, 1, none⟩
  lock := fun _ => none
  wait_lock := none
  nextpid := 2
  pc := fun _ => .run
  births := 2
  born := fun _ => 1
  freed := []

/-- The states of all interleavings. -/
abbrev Reachable (s : ProcSys) : Prop := Lib.Reach (· = boot) (fun _ _ => True) step s

end ProcSys

end Xv6
