/-
  Xv6.Proc.Alarm — alarms: `sigalarm`, `sigreturn` and their delivery
  (`kernel/proc.c`, `kernel/trap.c`, `kernel/syscall.c`; the RR build).

  A trap from user space stores the user registers in the trapframe page of
  the process, the kernel works on it, and `usertrapret` goes back with what
  it holds then.  A timer interrupt that delivers an alarm copies the page to
  a page of its own, `trapframe_backup`, and `sigreturn` copies it back.

  The model has all processes, the allocator both pages come from, and the
  rest of the kernel, which takes and gives back pages of its own at any
  time.  What user code does between two traps is an input of the trap: any
  registers, any program counter.

  Two ghost fields follow each process: the trapframe `saved` by its last
  delivery that it has not returned from, and how many such deliveries there
  are.
-/
import Xv6.Mem.Kalloc
import Xv6.Proc.State
import Xv6.Lib.Words
import Xv6.Lib.Runs

namespace Xv6

open Lib.Ref (own share)

/-! ## §1. The trapframe. -/

/-- The words of `struct trapframe`, by their offset divided by 8.  Words 5 to 35 are the 31 general registers. -/
def KERNEL_SATP : Nat := 0
/-- word of `kernel_sp` -/
def KERNEL_SP : Nat := 1
/-- word of `kernel_trap` -/
def KERNEL_TRAP : Nat := 2
/-- word of `epc` -/
def EPC : Nat := 3
/-- word of `kernel_hartid` -/
def KERNEL_HARTID : Nat := 4
/-- word of `sp` -/
def SP : Nat := 6
/-- word of `a0` -/
def A0 : Nat := 14
/-- word of `a1` -/
def A1 : Nat := 15
/-- word of `a7` -/
def A7 : Nat := 21

/-- `sizeof(struct trapframe)`, in words -/
def TFWORDS : Nat := 36

/-- The words of the user context: `epc` and the general registers. -/
def isUser (k : Nat) : Bool := k == EPC || (5 ≤ k && k < TFWORDS)

/-- The words `usertrapret` fills in. -/
def isKernel (k : Nat) : Bool := k == KERNEL_SATP || k == KERNEL_SP || k == KERNEL_TRAP || k == KERNEL_HARTID

/-- One field of a trapframe is written. -/
def setField (tf : Page) (k : Nat) (v : UInt64) : Page := Lib.setWords tf (· == k) fun _ => v

/-- `uservec` and `usertrap` save the user context. -/
def saveUser (tf : Page) (regs : Nat → UInt64) (epc : UInt64) : Page :=
  Lib.setWords tf isUser fun k => if k = EPC then epc else regs k

/-- What the kernel knows about itself: `r_satp()`, the address of `usertrap` and the kernel stacks. -/
structure KernelAddrs where
  satp : UInt64
  usertrap : UInt64
  kstack : Slot → UInt64

/-- What `usertrapret` writes on hart `tp`. -/
def kernelWord (K : KernelAddrs) (p : Slot) (tp : UInt64) (k : Nat) : UInt64 :=
  if k = KERNEL_SATP then K.satp
  else if k = KERNEL_SP then K.kstack p + 4096
  else if k = KERNEL_TRAP then K.usertrap
  else tp

/-! ## §2. Processes. -/

/-- The fields of `struct proc` for alarms. -/
structure AlarmProc where
  /-- `RUNNABLE` stands for every state of a live process -/
  state : ProcState
  trapframe : Option Nat
  trapframe_backup : Option Nat
  alarm_flag : Bool
  alarm_ticks : UInt64
  current_ticks : UInt64
  alarm_handler : UInt64
  a0_backup : UInt64
  mask : UInt32
  /-- the trapframe that the last delivery saved, until `sigreturn` -/
  saved : Option Page
  /-- the alarms delivered and not returned from -/
  outstanding : Nat

/-- What a pointer that the process table keeps refers to. -/
def optRef : Option Nat → Multiset PageRef
  | none => 0
  | some a => {own a}

namespace AlarmProc

/-- A slot of the process table before its first use: static data. -/
def unused : AlarmProc := ⟨.UNUSED, none, none, false, 0, 0, 0, 0, 0, none, 0⟩

/-- The pages a slot refers to. -/
def refs (x : AlarmProc) : Multiset PageRef := optRef x.trapframe + optRef x.trapframe_backup

/-- What `freeproc` leaves in a slot: `trapframe_backup` keeps its value. -/
def freed (x : AlarmProc) : AlarmProc :=
  { x with
    state := .UNUSED
    trapframe := none
    alarm_flag := false
    alarm_ticks := 0
    current_ticks := 0
    alarm_handler := 0
    saved := none
    outstanding := 0 }

/-- What `allocproc` makes of a slot: `trapframe_backup` is not initialised. -/
def found (x : AlarmProc) (a : Nat) : AlarmProc :=
  { x with
    state := .USED
    trapframe := some a
    alarm_flag := false
    alarm_ticks := 0
    current_ticks := 0
    alarm_handler := 0 }

/-- `sigalarm(ticks, handler)` -/
def sigalarm (x : AlarmProc) (ticks handler : UInt64) : AlarmProc :=
  { x with alarm_ticks := ticks, alarm_handler := handler, alarm_flag := true }

/-- Whether the next timer interrupt delivers an alarm. -/
def delivers (x : AlarmProc) : Bool := x.alarm_flag && decide (x.alarm_ticks ≤ x.current_ticks + 1)

/-- What the delivery of an alarm leaves in a slot, `b` being the new page and `tf` the trapframe. -/
def delivered (x : AlarmProc) (b : Nat) (tf : Page) : AlarmProc :=
  { x with
    alarm_flag := false
    current_ticks := x.current_ticks + 1
    trapframe_backup := some b
    saved := some tf
    outstanding := x.outstanding + 1 }

/-- What `sigreturn` leaves in a slot. -/
def returned (x : AlarmProc) (a0 : UInt64) : AlarmProc :=
  { x with
    trapframe_backup := none
    alarm_flag := !(x.alarm_ticks == 0 && x.alarm_handler == 0)
    current_ticks := 0
    a0_backup := a0
    saved := none
    outstanding := x.outstanding - 1 }

end AlarmProc

/-- The processes and the memory that holds their trapframes. -/
structure AlarmSys where
  km : Kmem
  proc : Slot → AlarmProc
  /-- the pages the rest of the kernel refers to -/
  rest : Multiset PageRef
  /-- pages whose last pointer was overwritten -/
  lost : Multiset PageRef
  /-- what `syscall` has printed: number, first argument and result -/
  printed : List (UInt32 × UInt64 × UInt64)

/-- What a system call finds outside this model. -/
structure CallEnv where
  /-- the slot `allocproc` finds, or the zombie `wait` finds -/
  child : Option Slot
  /-- `proc_pagetable`, `uvmcopy` and `exec` succeed -/
  ok : Bool
  /-- `elf.entry` and the stack pointer of `exec` -/
  entry : UInt64
  sp : UInt64
  /-- the result of a system call not modelled further -/
  ret : UInt64

/-- What happens to processes in user mode. -/
inductive AlarmStep where
  | userinit (c : Slot)
  /-- a system call, with the user's registers, returning on hart `tp` -/
  | ecall (p : Slot) (regs : Nat → UInt64) (epc : UInt64) (env : CallEnv) (tp : UInt64)
  /-- a timer interrupt -/
  | timer (p : Slot) (regs : Nat → UInt64) (epc : UInt64) (tp : UInt64)
  /-- a page fault that was handled, or another device interrupt -/
  | trap (p : Slot) (regs : Nat → UInt64) (epc : UInt64) (tp : UInt64)
  /-- a process that was killed exits at a trap -/
  | killed (p : Slot)
  /-- the rest of the kernel takes a page, drops or duplicates a reference, writes a page -/
  | kalloc
  | kfree (r : PageRef)
  | increase_num_ref (r : PageRef)
  | write (r : PageRef) (page : Page)

/-- number of `fork` -/
def SYS_fork : UInt32 := 1
/-- number of `exit` -/
def SYS_exit : UInt32 := 2
/-- number of `wait` -/
def SYS_wait : UInt32 := 3
/-- number of `exec` -/
def SYS_exec : UInt32 := 7
/-- number of `trace` -/
def SYS_trace : UInt32 := 22
/-- number of `sigalarm` -/
def SYS_sigalarm : UInt32 := 23
/-- number of `sigreturn` -/
def SYS_sigreturn : UInt32 := 24
/-- number of `waitx` -/
def SYS_waitx : UInt32 := 26

/-- `NELEM(syscalls)` -/
def NSYSCALLS : UInt32 := 28

/-- The result -1. -/
def FAILED : UInt64 := 0xffffffffffffffff

namespace AlarmSys

variable (L : Layout) (K : KernelAddrs)

/-- The fields of a process change. -/
def setProc (s : AlarmSys) (p : Slot) (x : AlarmProc) : AlarmSys :=
  { s with proc := Function.update s.proc p x }

/-- The page at `a` is written. -/
def setPage (s : AlarmSys) (a : Nat) (page : Page) : AlarmSys :=
  { s with km := { s.km with mem := Function.update s.km.mem a page } }

/-- `kfree` of a pointer that is tested first -/
def kfreeOpt (km : Kmem) : Option Nat → Except StepFault Kmem
  | none => .ok km
  | some a =>
    match Xv6.kfree L km a with
    | .error f => .error (.fault f)
    | .ok km' => .ok km'

/-- `freeproc(p)`.  The page table and the user memory belong to the rest of the kernel. -/
def freeproc (s : AlarmSys) (c : Slot) : Except StepFault AlarmSys :=
  match kfreeOpt L s.km (s.proc c).trapframe with
  | .error f => .error f
  | .ok km =>
    match kfreeOpt L km (s.proc c).trapframe_backup with
    | .error f => .error f
    | .ok km => .ok ({ s with km := km }.setProc c (s.proc c).freed)

/-- `allocproc()` with the slot it finds, the first one that is UNUSED; the trapframe, if it succeeds. -/
def allocproc (s : AlarmSys) (c : Slot) (ok : Bool) : Except StepFault (AlarmSys × Option Nat) :=
  if (s.proc c).state ≠ .UNUSED ∨ ∃ d < c, (s.proc d).state = .UNUSED then .error .disabled
  else
    match Xv6.kalloc s.km with
    | (km, none) =>
      match freeproc L ({ s with km := km }.setProc c { s.proc c with trapframe := none }) c with
      | .error f => .error f
      | .ok s' => .ok (s', none)
    | (km, some a) =>
      let s' := { s with km := km }.setProc c ((s.proc c).found a)
      if ok then .ok (s', some a)
      else
        match freeproc L s' c with
        | .error f => .error f
        | .ok s' => .ok (s', none)

/-- `fork()` by process `p` with trapframe `a`: the child gets the parent's trapframe, not its backup. -/
def fork (s : AlarmSys) (p : Slot) (a : Nat) (env : CallEnv) : Except StepFault (AlarmSys × UInt64) :=
  match env.child with
  | none => if ∃ d, (s.proc d).state = .UNUSED then .error .disabled else .ok (s, FAILED)
  | some c =>
    match allocproc L s c env.ok with
    | .error f => .error f
    | .ok (s', none) => .ok (s', FAILED)
    | .ok (s', some b) =>
      let frame := setField (Lib.copyWords (s'.km.mem b) (s'.km.mem a) TFWORDS) A0 0
      .ok ((s'.setPage b frame).setProc c
        { s'.proc c with state := .RUNNABLE, mask := (s.proc p).mask }, env.ret)

/-- `sigreturn()` by process `p` with trapframe `a` -/
def sigreturn (s : AlarmSys) (p : Slot) (a : Nat) : Except StepFault AlarmSys :=
  match (s.proc p).trapframe_backup with
  | none => .error (.fault .null)
  | some b =>
    let backup := Lib.setWords (s.km.mem b) isKernel (Lib.word (s.km.mem a))
    let s' := s.setPage b backup
    let s' := s'.setPage a (Lib.copyWords (s'.km.mem a) (s'.km.mem b) TFWORDS)
    match Xv6.kfree L s'.km b with
    | .error f => .error (.fault f)
    | .ok km => .ok ({ s' with km := km }.setProc p ((s.proc p).returned (Lib.word (km.mem a) A0)))

/-- The function of the system call; `none` when it does not return. -/
def dispatch (s : AlarmSys) (p : Slot) (a : Nat) (num : UInt32) (env : CallEnv) :
    Except StepFault (AlarmSys × Option UInt64) :=
  let arg (k : Nat) := Lib.word (s.km.mem a) k
  if num = SYS_fork then
    match fork L s p a env with
    | .error f => .error f
    | .ok (s', ret) => .ok (s', some ret)
  else if num = SYS_exit then
    if p = initproc then .error (.fault (.panic "init exiting"))
    else .ok (s.setProc p { s.proc p with state := .ZOMBIE }, none)
  else if num = SYS_wait ∨ num = SYS_waitx then
    match env.child with
    | none => .ok (s, some env.ret)
    | some c =>
      if (s.proc c).state ≠ .ZOMBIE then .error .disabled
      else
        match freeproc L s c with
        | .error f => .error f
        | .ok s' => .ok (s', some env.ret)
  else if num = SYS_exec then
    if env.ok then
      .ok (s.setPage a (setField (setField (setField (s.km.mem a) A1 env.sp) EPC env.entry) SP env.sp), some env.ret)
    else .ok (s, some FAILED)
  else if num = SYS_trace then .ok (s.setProc p { s.proc p with mask := (arg A0).toUInt32 }, some 0)
  -- `int ticks` becomes the `uint64` argument with its sign
  else if num = SYS_sigalarm then
    let ticks := (arg A0).toInt64.toInt32.toInt64.toUInt64
    .ok (s.setProc p ((s.proc p).sigalarm ticks (arg A1)), some 0)
  else if num = SYS_sigreturn then
    match sigreturn L s p a with
    | .error f => .error f
    | .ok s' => .ok (s', some 0)
  else .ok (s, some env.ret)

/-- `p->trapframe->a0 = v` -/
def setA0 (s : AlarmSys) (a : Nat) (v : UInt64) : AlarmSys := s.setPage a (setField (s.km.mem a) A0 v)

/-- The printing of a traced call. -/
def trace (s : AlarmSys) (p : Slot) (num : UInt32) (firstarg ret : UInt64) : AlarmSys :=
  if (s.proc p).mask &&& (1 <<< num) ≠ 0 then { s with printed := s.printed ++ [(num, firstarg, ret)] } else s

/-- The end of `syscall()`: after `sigreturn`, `a0` is the saved one. -/
def patchA0 (s : AlarmSys) (p : Slot) (a : Nat) (num : UInt32) : AlarmSys :=
  if num = SYS_sigreturn then s.setA0 a (s.proc p).a0_backup else s

/-- `syscall()`; whether it returns. -/
def syscall (s : AlarmSys) (p : Slot) (a : Nat) (env : CallEnv) : Except StepFault (AlarmSys × Bool) :=
  let num := (Lib.word (s.km.mem a) A7).toUInt32
  let firstarg := Lib.word (s.km.mem a) A0
  if 0 < num ∧ num < NSYSCALLS then
    match dispatch L s p a num env with
    | .error f => .error f
    | .ok (s', none) => .ok (s', false)
    | .ok (s', some ret) => .ok (((s'.setA0 a ret).trace p num firstarg ret).patchA0 p a num, true)
  else .ok ((s.setA0 a FAILED).patchA0 p a num, true)

/-- `usertrapret()` on hart `tp` -/
def usertrapret (s : AlarmSys) (p : Slot) (a : Nat) (tp : UInt64) : AlarmSys :=
  s.setPage a (Lib.setWords (s.km.mem a) isKernel (kernelWord K p tp))

/-- The alarm part of `usertrap` at a timer interrupt. -/
def alarm (s : AlarmSys) (p : Slot) (a : Nat) : Except StepFault AlarmSys :=
  let x := s.proc p
  if x.delivers then
    match Xv6.kalloc s.km with
    | (_, none) => .error (.fault .null)
    | (km, some b) =>
      let s' := { s with km := km, lost := optRef x.trapframe_backup + s.lost }
      let s' := s'.setPage b (Lib.copyWords (s'.km.mem b) (s'.km.mem a) TFWORDS)
      let s' := s'.setPage a (setField (s'.km.mem a) EPC x.alarm_handler)
      .ok (s'.setProc p (x.delivered b (s.km.mem a)))
  else if x.alarm_flag then .ok (s.setProc p { x with current_ticks := x.current_ticks + 1 })
  else .ok s

/-- A trap from user space: the trapframe page, with the user context saved in it. -/
def enter (s : AlarmSys) (p : Slot) (regs : Nat → UInt64) (epc : UInt64) : Except StepFault (AlarmSys × Nat) :=
  match (s.proc p).state, (s.proc p).trapframe with
  | .RUNNABLE, some a => .ok (s.setPage a (saveUser (s.km.mem a) regs epc), a)
  | _, _ => .error .disabled

/-- What a step does. -/
def step (s : AlarmSys) : AlarmStep → Except StepFault AlarmSys
  | .userinit c =>
    match allocproc L s c true with
    | .error f => .error f
    | .ok (_, none) => .error (.fault .null)
    | .ok (s', some a) =>
      .ok ((s'.setPage a (setField (setField (s'.km.mem a) EPC 0) SP 4096)).setProc c
        { s'.proc c with state := .RUNNABLE })
  | .ecall p regs epc env tp =>
    s.enter p regs (epc + 4) >>= fun e =>
      syscall L e.1 p e.2 env >>= fun r => .ok (if r.2 then r.1.usertrapret K p e.2 tp else r.1)
  | .timer p regs epc tp =>
    s.enter p regs epc >>= fun e => e.1.alarm p e.2 >>= fun s' => .ok (s'.usertrapret K p e.2 tp)
  | .trap p regs epc tp => s.enter p regs epc >>= fun e => .ok (e.1.usertrapret K p e.2 tp)
  | .killed p =>
    if (s.proc p).state ≠ .RUNNABLE then .error .disabled
    else if p = initproc then .error (.fault (.panic "init exiting"))
    else .ok (s.setProc p { s.proc p with state := .ZOMBIE })
  | .kalloc =>
    match Xv6.kalloc s.km with
    | (_, none) => .ok s
    | (km, some a) => .ok { s with km := km, rest := {own a} + s.rest }
  | .kfree r =>
    if r ∈ s.rest then
      match Xv6.kfree L s.km r.cell with
      | .error f => .error (.fault f)
      | .ok km => .ok { s with km := km, rest := s.rest.erase r }
    else .error .disabled
  | .increase_num_ref r =>
    if r ∈ s.rest then
      match Xv6.increase_num_ref L s.km r.cell with
      | .error f => .error (.fault f)
      | .ok km => .ok { s with km := km, rest := {share r.cell} + {share r.cell} + s.rest.erase r }
    else .error .disabled
  | .write r page => if r ∈ s.rest then .ok (s.setPage r.cell page) else .error .disabled

/-- After `kinit` and `procinit`. -/
def Init (s : AlarmSys) : Prop :=
  (∃ ram, kinit L ram = .ok s.km) ∧ s.rest = 0 ∧ s.lost = 0 ∧ ∀ p, s.proc p = AlarmProc.unused

/-- The registers of a system call with two arguments. -/
def callRegs (num a0 a1 : UInt64) (k : Nat) : UInt64 :=
  if k = A7 then num else if k = A0 then a0 else if k = A1 then a1 else 0

/-- A run from boot, executed. -/
theorem reach_of_boot (ok : AlarmSys → AlarmStep → Prop) [∀ s x, Decidable (ok s x)] (xs : List AlarmStep)
    (test : AlarmSys → Bool) (h : (kinit L fun _ _ => 0).toOption.any (fun km =>
      Lib.reaches ok (step L K) ⟨km, fun _ => AlarmProc.unused, 0, 0, []⟩ xs test) = true) :
    ∃ s, Lib.Reach (Init L) ok (step L K) s ∧ test s = true := by
  obtain ⟨km, hk, -⟩ := kinit_spec L fun _ _ => 0
  rw [hk] at h
  have hinit : Init L ⟨km, fun _ => AlarmProc.unused, 0, 0, []⟩ := ⟨⟨_, hk⟩, rfl, rfl, fun _ => rfl⟩
  exact Lib.Reach.of_reaches xs test hinit h

end AlarmSys

end Xv6
