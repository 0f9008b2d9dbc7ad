/-
  Xv6.Sched.Mlfq — the multi-level feedback queue scheduler
  (`mlfq_scheduler`, `queue_switch`, `update_ticks`, `allocproc`, `freeproc`
  of `kernel/proc.c`, the MLFQ parts of `kernel/trap.c`).

  The model holds what the MLFQ build reads of a process: its state, the
  channel it sleeps on and the five `mlfq variables`.  Membership in a queue
  is recorded three times over: in the ring buffers, in `qued_fl` and in
  `curr_q`.

  A step is a piece of kernel code that runs with the locks it needs held:
  the scheduler choosing a process, a process giving up the CPU together
  with the scheduler's re-queueing of it (`p->lock` is held across `swtch`),
  a clock interrupt, fork, exit, and the reaping of a zombie.  An index of
  `mlfqs`, `q_ticks` or a shift by `curr_q` that is out of range ends the run.
-/
import Xv6.Sched.Queue
import Xv6.Lib.Runs

namespace Xv6

/-! ## §1. State. -/

/-- the number of queues -/
def MLFQ_LEVELS : Nat := 5

/-- ticks a process waits before it is moved up -/
def AGING : UInt64 := 30

/-- the MLFQ view of `struct proc` -/
structure MProc where
  state : ProcState
  chan : Nat
  curr_q : Int
  q_ticks : Nat → UInt64
  cq_rticks : UInt64
  q_enter_time : UInt64
  qued_fl : Bool

/-- The queues and the processes. -/
structure Mlfq where
  mlfqs : Nat → Que
  proc : Slot → MProc
  ticks : UInt32

/-- Why a step does not happen. -/
inductive MlfqFault where
  /-- the step is not enabled -/
  | disabled
  /-- `curr_q` is used out of its range -/
  | bounds
  /-- the lock of the null process is acquired -/
  | null
  deriving DecidableEq, Repr

/-- What a call returns. -/
abbrev MlfqResult := Except MlfqFault

/-- the channel `&ticks` -/
def ticksChan : Nat := 1

namespace Mlfq

/-- A slot changes. -/
def setProc (s : Mlfq) (p : Slot) (x : MProc) : Mlfq :=
  { s with proc := Function.update s.proc p x }

/-- A queue changes. -/
def setQue (s : Mlfq) (q : Nat) (que : Que) : Mlfq :=
  { s with mlfqs := Function.update s.mlfqs q que }

/-- `que_push(&mlfqs[q], p)` -/
def push (s : Mlfq) (q : Nat) (p : Slot) : Mlfq := s.setQue q (que_push (s.mlfqs q) p)

/-- `que_pop(&mlfqs[q])`, its result not looked at -/
def pop (s : Mlfq) (q : Nat) : Mlfq := s.setQue q (que_pop (s.mlfqs q)).1

/-- The level named by an `int`, if it is one. -/
def level (c : Int) : Option Nat := if 0 ≤ c ∧ c < MLFQ_LEVELS then some c.toNat else none

/-! ## §2. The scheduler. -/

/-- The test of `queue_switch`: RUNNABLE and queued for more than 30 ticks. -/
def aged (s : Mlfq) (p : Slot) : Bool :=
  (s.proc p).state = .RUNNABLE ∧ s.ticks.toUInt64 - (s.proc p).q_enter_time > AGING

/-- The body of `queue_switch` for an aged front `p` of level `q`. -/
def promote (s : Mlfq) (q : Nat) (p : Slot) : Mlfq :=
  let s := s.pop q
  let s := s.setProc p { s.proc p with curr_q := (s.proc p).curr_q - 1, cq_rticks := 0 }
  s.push (q - 1) p

/-- The while loop of `queue_switch` on level `q`; each turn but the last
takes an entry away, so `size` turns are enough. -/
def switchLevel (q : Nat) : Nat → Mlfq → Mlfq
  | 0, s => s
  | k + 1, s =>
    match que_front (s.mlfqs q) with
    | none => s
    | some p => if s.aged p then switchLevel q k (s.promote q p) else s

/-- `queue_switch()` -/
def queue_switch (s : Mlfq) : Mlfq :=
  [1, 2, 3, 4].foldl (fun s q => switchLevel q (s.mlfqs q).size s) s

/-- `que_push(&mlfqs[p->curr_q], p)` after the fields are set, as the enqueue
loop and the scheduler after `swtch` do it. -/
def requeue (s : Mlfq) (p : Slot) : MlfqResult Mlfq :=
  match level (s.proc p).curr_q with
  | none => .error .bounds
  | some q =>
    .ok ((s.setProc p { s.proc p with
      q_enter_time := s.ticks.toUInt64, cq_rticks := 0, qued_fl := true }).push q p)

/-- One turn of the loop that queues all unqueued processes. -/
def enqueue (s : Mlfq) (p : Slot) : MlfqResult Mlfq :=
  if (s.proc p).state = .RUNNABLE ∧ (s.proc p).qued_fl = false then s.requeue p else .ok s

/-- The while loop that pops level `q` until it finds a RUNNABLE process. -/
def popLevel (q : Nat) : Nat → Mlfq → Mlfq × Option Slot
  | 0, s => (s, none)
  | k + 1, s =>
    match que_pop (s.mlfqs q) with
    | (_, none) => (s, none)
    | (que, some p) =>
      let s := s.setQue q que
      let s := s.setProc p { s.proc p with qued_fl := false }
      if (s.proc p).state = .RUNNABLE then (s, some p) else popLevel q k s

/-- The for loop over the levels around it. -/
def popLevels : List Nat → Mlfq → Mlfq × Option Slot
  | [], s => (s, none)
  | q :: qs, s =>
    match popLevel q (s.mlfqs q).size s with
    | (s, some p) => (s, some p)
    | (s, none) => popLevels qs s

/-- `mlfq_scheduler` up to its `swtch`, with the process that it switches to. -/
def schedule (s : Mlfq) : MlfqResult (Mlfq × Option Slot) := do
  let s ← (List.finRange NPROC).foldlM enqueue s.queue_switch
  match popLevels [0, 1, 2, 3, 4] s with
  | (s, none) => .ok (s, none)
  | (s, some p) => .ok (s.setProc p { s.proc p with state := .RUNNING }, some p)

/-- The same, as a step. -/
def dispatch (s : Mlfq) : MlfqResult Mlfq := Prod.fst <$> s.schedule

/-- A running process calls `sched` in state `st`; `mlfq_scheduler` goes on
after `swtch`. -/
def giveUp (s : Mlfq) (p : Slot) (st : ProcState) (chan : Nat) : MlfqResult Mlfq :=
  if (s.proc p).state = .RUNNING then
    (s.setProc p { s.proc p with state := st, chan := chan }).requeue p
  else .error .disabled

/-! ## §3. Processes. -/

/-- `freeproc(p)` -/
def freeproc (s : Mlfq) (p : Slot) : Mlfq :=
  s.setProc p ⟨.UNUSED, 0, 0, fun _ => 0, 0, 0, false⟩

/-- The end of `allocproc(p)`, from `p->curr_q = 0` on, for a slot in state USED. -/
def enterQueue (s : Mlfq) (p : Slot) : Mlfq :=
  (s.setProc p { s.proc p with
    state := .USED, curr_q := 0, q_ticks := fun _ => 0, q_enter_time := s.ticks.toUInt64,
    qued_fl := true, cq_rticks := 0 }).push 0 p

/-- What becomes of a fork that found a slot. -/
inductive ForkOut where
  /-- `allocproc` runs out of memory and frees the slot again -/
  | nomem
  /-- `uvmcopy` fails and `fork` frees the slot -/
  | copyfail
  | done
  deriving DecidableEq, Repr

/-- The slot `allocproc` finds. -/
def findUnused (s : Mlfq) : Option Slot :=
  (List.finRange NPROC).find? fun p => (s.proc p).state = .UNUSED

/-- `fork()` up to `np->state = RUNNABLE`. -/
def fork (s : Mlfq) (out : ForkOut) : Mlfq :=
  match s.findUnused with
  | none => s
  | some p =>
    match out with
    | .nomem => s.freeproc p
    | .copyfail => (s.enterQueue p).freeproc p
    | .done => s.enterQueue p

/-- `wakeup(chan)` -/
def wakeup (s : Mlfq) (chan : Nat) : Mlfq :=
  { s with proc := fun p =>
      if (s.proc p).state = .SLEEPING ∧ (s.proc p).chan = chan
      then { s.proc p with state := .RUNNABLE } else s.proc p }

/-! ## §4. Interrupts. -/

/-- One turn of the loop of `update_ticks`. -/
def tickOne (s : Mlfq) (p : Slot) : MlfqResult Mlfq :=
  if (s.proc p).state = .RUNNING then
    match level (s.proc p).curr_q with
    | none => .error .bounds
    | some q => .ok (s.setProc p { s.proc p with
        cq_rticks := (s.proc p).cq_rticks + 1
        q_ticks := Function.update (s.proc p).q_ticks q ((s.proc p).q_ticks q + 1) })
  else .ok s

/-- `clockintr()` -/
def clockintr (s : Mlfq) : MlfqResult Mlfq := do
  let s ← (List.finRange NPROC).foldlM tickOne { s with ticks := s.ticks + 1 }
  .ok (s.queue_switch.wakeup ticksChan)

/-- The demotion test `p->cq_rticks >= (1 << p->curr_q)`. -/
def expired (s : Mlfq) (p : Slot) : MlfqResult Bool :=
  match level (s.proc p).curr_q with
  | none => .error .bounds
  | some q => .ok (decide ((s.proc p).cq_rticks.toNat ≥ 2 ^ q))

/-- The demotion in `usertrap`: the tick count is reset only below level 4. -/
def usertrap (s : Mlfq) (p : Slot) : MlfqResult Mlfq := do
  if (s.proc p).state ≠ .RUNNING then .error .disabled
  else if ← s.expired p then
    if (s.proc p).curr_q < 4 then
      .ok (s.setProc p { s.proc p with curr_q := (s.proc p).curr_q + 1, cq_rticks := 0 })
    else .ok s
  else .ok s

/-- The demotion in `kerneltrap`: the tick count is reset on every level. -/
def kerneltrap (s : Mlfq) (p : Slot) : MlfqResult Mlfq := do
  if (s.proc p).state ≠ .RUNNING then .error .disabled
  else if ← s.expired p then
    let s := if (s.proc p).curr_q < 4 then
        s.setProc p { s.proc p with curr_q := (s.proc p).curr_q + 1 } else s
    .ok (s.setProc p { s.proc p with cq_rticks := 0 })
  else .ok s

/-! ## §5. The system. -/

/-- What changes queues and processes. -/
inductive Step where
  | fork (out : ForkOut)
  /-- the end of `fork`: the child becomes RUNNABLE -/
  | ready (p : Slot)
  | dispatch
  | yield (p : Slot)
  | sleep (p : Slot) (chan : Nat)
  | exit (p : Slot)
  | wakeup (chan : Nat)
  | kill (p : Slot)
  | clockintr
  | usertrap (p : Slot)
  | kerneltrap (p : Slot)
  /-- `wait` frees the zombie -/
  | reap (p : Slot)
  deriving DecidableEq, Repr

/-- What a step does. -/
def step (s : Mlfq) : Step → MlfqResult Mlfq
  | .fork out => .ok (s.fork out)
  | .ready p =>
    if (s.proc p).state = .USED then .ok (s.setProc p { s.proc p with state := .RUNNABLE })
    else .error .disabled
  | .dispatch => s.dispatch
  | .yield p => s.giveUp p .RUNNABLE (s.proc p).chan
  | .sleep p chan => s.giveUp p .SLEEPING chan
  | .exit p => if p = initproc then .error .disabled else s.giveUp p .ZOMBIE (s.proc p).chan
  | .wakeup chan => .ok (s.wakeup chan)
  | .kill p =>
    if (s.proc p).state = .SLEEPING then
      .ok (s.setProc p { s.proc p with state := .RUNNABLE })
    else .ok s
  | .clockintr => s.clockintr
  | .usertrap p => s.usertrap p
  | .kerneltrap p => s.kerneltrap p
  | .reap p => if (s.proc p).state = .ZOMBIE then .ok (s.freeproc p) else .error .disabled

/-- After `procinit` and `mlfq_init`. -/
def zero : Mlfq := ⟨fun _ => Que.empty, fun _ => ⟨.UNUSED, 0, 0, fun _ => 0, 0, 0, false⟩, 0⟩

/-- After `userinit`: the first process is RUNNABLE. -/
def boot : Mlfq :=
  let s := zero.enterQueue initproc
  s.setProc initproc { s.proc initproc with state := .RUNNABLE }

/-- `p` runs through `n` ticks, then yields, and the scheduler goes on. -/
def burn (p : Slot) (n : Nat) : List Step :=
  (List.replicate n [Step.clockintr, .usertrap p]).flatten ++ [.yield p, .dispatch]

end Mlfq

end Xv6
