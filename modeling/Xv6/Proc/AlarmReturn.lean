/-
  Xv6.Proc.AlarmReturn — what `sigreturn` restores (`kernel/proc.c`,
  `kernel/trap.c`, `kernel/syscall.c`).

  `sigreturn` copies the backup over the trapframe, but keeps the four words
  of the kernel in it.  `syscall` then overwrites `a0` with the result of the
  call and, for this one call, patches it again from `a0_backup`.  Between the
  delivery and `sigreturn` the process may trap any number of times, on any
  hart, and other processes run.

  Main results:
    * `sigreturn_ecall`      — the trapframe after the system call,
    * `sigreturn_own_frame`  — it is the frame of the process's own delivery,
    * `sigreturn_restores`   — a handler is invisible to the interrupted code.
-/
import Xv6.Proc.AlarmInv

namespace Xv6.AlarmSys

open Lib.Ref (own)
open Lib (word word_setWords)

variable {L : Layout} {K : KernelAddrs} {s s' : AlarmSys} {p : Slot} {a b : Nat}

/-! ## §1. The system call `sigreturn`. -/

theorem enter_run (regs : Nat → UInt64) (epc : UInt64) (hlive : (s.proc p).state = .RUNNABLE)
    (htf : (s.proc p).trapframe = some a) :
    s.enter p regs epc = .ok (s.setPage a (saveUser (s.km.mem a) regs epc), a) := by
  unfold AlarmSys.enter
  rw [hlive, htf]

theorem dispatch_sigreturn {env : CallEnv} (hret : AlarmSys.sigreturn L s p a = .ok s') :
    AlarmSys.dispatch L s p a SYS_sigreturn env = .ok (s', some 0) := by
  unfold AlarmSys.dispatch
  rw [if_neg (by decide), if_neg (by decide), if_neg (by decide), if_neg (by decide), if_neg (by decide),
    if_neg (by decide), if_pos rfl, hret]

theorem syscall_sigreturn (env : CallEnv) (hnum : (word (s.km.mem a) A7).toUInt32 = SYS_sigreturn)
    (hret : AlarmSys.sigreturn L s p a = .ok s') : AlarmSys.syscall L s p a env
      = .ok (((s'.setA0 a 0).trace p SYS_sigreturn (word (s.km.mem a) A0) 0).patchA0 p a SYS_sigreturn, true) := by
  unfold AlarmSys.syscall
  rw [hnum, if_pos (by decide), dispatch_sigreturn hret]

variable {regs : Nat → UInt64}

theorem ecall_run {s₁ s₂ : AlarmSys} {epc : UInt64} {env : CallEnv} (tp : UInt64)
    (henter : s.enter p regs (epc + 4) = .ok (s₁, a)) (hsys : AlarmSys.syscall L s₁ p a env = .ok (s₂, true)) :
    AlarmSys.step L K s (.ecall p regs epc env tp) = .ok (s₂.usertrapret K p a tp) := by
  refine (Lib.bind_of_ok henter).trans ?_
  exact Lib.bind_of_ok hsys

theorem km_trace (s : AlarmSys) (p : Slot) (num : UInt32) (v w : UInt64) : (s.trace p num v w).km = s.km := by
  unfold AlarmSys.trace
  split <;> rfl

/-- The end of the system call: `a0` is the saved one, the rest of the trapframe as `sigreturn` left it. -/
theorem word_patched (s : AlarmSys) (p : Slot) (a : Nat) (v w : UInt64) (k : Nat) :
    word ((((s.setA0 a w).trace p SYS_sigreturn v w).patchA0 p a SYS_sigreturn).km.mem a) k
      = if k = A0 then (s.proc p).a0_backup else word (s.km.mem a) k := by
  unfold AlarmSys.patchA0
  rw [if_pos rfl, AlarmSys.setA0, page_setPage, proc_trace, km_trace, AlarmSys.setA0, page_setPage, proc_setPage]
  rw [setField, setField, word_setWords, word_setWords]
  by_cases hk : k = A0
  · rw [if_pos (beq_iff_eq.mpr hk), if_pos hk]
  · rw [if_neg (fun h => hk (beq_iff_eq.mp h)), if_neg (fun h => hk (beq_iff_eq.mp h)), if_neg hk]

theorem isUser_lt {k : Nat} (h : isUser k = true) : k < TFWORDS ∧ isKernel k = false := by
  have hwords : TFWORDS = 36 := rfl
  simp only [isUser, isKernel, EPC, KERNEL_SATP, KERNEL_SP, KERNEL_TRAP, KERNEL_HARTID, Bool.or_eq_true,
    Bool.and_eq_true, beq_iff_eq, decide_eq_true_eq, Bool.or_eq_false_iff, beq_eq_false_iff_ne] at h ⊢
  omega

/-- **The system call `sigreturn`** of a process with a backup: the user context is the one of the backup, the kernel's
words are those of the hart it returns on. -/
theorem sigreturn_ecall (h : s.Inv L) (epc tp : UInt64) (env : CallEnv)
    (hlive : (s.proc p).state = .RUNNABLE) (htf : (s.proc p).trapframe = some a)
    (hb : (s.proc p).trapframe_backup = some b) (hnum : callNum regs = SYS_sigreturn) :
    ∃ s', AlarmSys.step L K s (.ecall p regs epc env tp) = .ok s'
      ∧ (s'.proc p).trapframe = some a ∧ (s'.proc p).trapframe_backup = none
      ∧ (∀ k, isUser k = true → word (s'.km.mem a) k = word (s.km.mem b) k)
      ∧ ∀ k, isKernel k = true → word (s'.km.mem a) k = kernelWord K p tp k := by
  have henter := enter_run regs (epc + 4) hlive htf
  have hnum₁ := (enter_num henter).trans hnum
  have hinv := h.enter henter
  have hne : b ≠ a := (h.trapframe_ne_backup htf hb).symm
  generalize hs₁ : s.setPage a (saveUser (s.km.mem a) regs (epc + 4)) = s₁ at henter hnum₁ hinv
  have hbackup : s₁.km.mem b = s.km.mem b := by
    rw [← hs₁]
    exact Function.update_of_ne hne _ _
  have hproc := enter_proc henter
  obtain ⟨km, hret, -, hword⟩ := sigreturn_spec hinv (hproc ▸ htf) (hproc ▸ hb)
  have hp := setProc_self { s₁ with km := km } p ((s₁.proc p).returned (word (km.mem a) A0))
  have hkm : ({ s₁ with km := km }.setProc p ((s₁.proc p).returned (word (km.mem a) A0))).km = km := rfl
  generalize { s₁ with km := km }.setProc p ((s₁.proc p).returned (word (km.mem a) A0)) = s₂ at hret hp hkm
  have hrun := ecall_run (K := K) tp henter (syscall_sigreturn env hnum₁ hret)
  refine ⟨_, hrun, ?_, ?_, fun k hk => ?_, fun k hk => ?_⟩
  · rw [proc_usertrapret, proc_patchA0, proc_trace, AlarmSys.setA0, proc_setPage, hp, hproc]
    exact htf
  · rw [proc_usertrapret, proc_patchA0, proc_trace, AlarmSys.setA0, proc_setPage, hp]
    rfl
  · obtain ⟨hlt, hkernel⟩ := isUser_lt hk
    have hrestored : word (km.mem a) k = word (s.km.mem b) k := by
      rw [hword k hlt, hkernel, if_neg Bool.false_ne_true, hbackup]
    rw [AlarmSys.usertrapret, page_setPage, word_setWords, hkernel, if_neg Bool.false_ne_true, word_patched, hp, hkm]
    by_cases hk0 : k = A0
    · rw [if_pos hk0, ← hrestored, hk0]
      rfl
    · rw [if_neg hk0, hrestored]
  · rw [AlarmSys.usertrapret, page_setPage, word_setWords, if_pos hk]

/-! ## §2. Whose frame `sigreturn` reads. -/

/-- `sigreturn` is called with an alarm outstanding only. -/
def returnsAlarm (s : AlarmSys) : AlarmStep → Bool
  | .ecall p regs _ _ _ => callNum regs != SYS_sigreturn || (s.proc p).trapframe_backup.isSome
  | _ => true

/-- **`sigreturn` reads the frame of its own delivery** in the runs that reap no process inside its handler and in which
no process calls `sigreturn` without an alarm: the backup is a page of the process, with the words that its last
delivery saved, and the call returns. -/
theorem sigreturn_own_frame
    (h : Lib.Reach (Init L) (fun s x => s.reapsClean x = true ∧ s.returnsAlarm x = true) (step L K) s)
    {regs : Nat → UInt64} {epc tp : UInt64} {env : CallEnv} (hlive : (s.proc p).state = .RUNNABLE)
    (hnum : callNum regs = SYS_sigreturn) (hok : s.returnsAlarm (.ecall p regs epc env tp) = true) :
    ∃ tf b s', (s.proc p).saved = some tf ∧ (s.proc p).trapframe_backup = some b ∧ OwnedBy L s p b
      ∧ (∀ k < TFWORDS, word (s.km.mem b) k = word tf k)
      ∧ step L K s (.ecall p regs epc env tp) = .ok s' ∧ (s'.proc p).trapframe_backup = none := by
  have hinv : s.Inv L := h.invariant (fun _ hs => hs.inv) fun _ _ _ hs hclean hrun => hs.step hclean.1 hrun
  have hsome : (s.proc p).trapframe_backup.isSome = true := by
    simpa only [returnsAlarm, hnum, bne_self_eq_false, Bool.false_or] using hok
  obtain ⟨b, hb⟩ := Option.isSome_iff_exists.mp hsome
  obtain ⟨a, htf⟩ := Option.ne_none_iff_exists'.mp ((hinv.slot p).live (by rw [hlive]; nofun))
  obtain ⟨tf, hsaved⟩ : ∃ tf, (s.proc p).saved = some tf := by
    apply Option.ne_none_iff_exists'.mp
    intro hnone
    rw [(hinv.slot p).clear hnone] at hb
    cases hb
  obtain ⟨b', hb', hword⟩ := (hinv.slot p).frame tf hsaved
  rw [hb] at hb'
  cases hb'
  obtain ⟨s', hrun, -, hnone, -⟩ := sigreturn_ecall (K := K) hinv epc tp env hlive htf hb hnum
  exact ⟨tf, b, s', hsaved, hb, hinv.backup_alone hb, hword, hrun, hnone⟩

theorem sigreturn_own_frame_childAlarm : ∃ s b s', (s.proc child).trapframe_backup = some b
      ∧ step Layout.small someAddrs s (.ecall child (callRegs 24 0 0) 64 noEnv 0) = .ok s'
      ∧ (s'.proc child).trapframe_backup = none := by
  obtain ⟨s, hs, hend⟩ := reach_of_boot Layout.small someAddrs
    (fun s x => s.reapsClean x = true ∧ s.returnsAlarm x = true) childAlarm
    (fun s => (s.proc child).state = .RUNNABLE ∧ s.returnsAlarm (.ecall child (callRegs 24 0 0) 64 noEnv 0) = true)
    (by decide +kernel)
  obtain ⟨hlive, hok⟩ := decide_eq_true_eq.mp hend
  obtain ⟨-, b, s', -, hb, -, -, hrun, hnone⟩ := sigreturn_own_frame hs hlive (by decide) hok
  exact ⟨s, b, s', hb, hrun, hnone⟩

/-- **`sigreturn` without an alarm** dereferences the null pointer. -/
theorem sigreturn_null : ∃ s, Lib.Reach (Init Layout.small) (fun _ _ => True) (step Layout.small someAddrs) s
      ∧ step Layout.small someAddrs s (.ecall initproc (callRegs 24 0 0) 0 noEnv 0) = .error (.fault .null) := by
  obtain ⟨s, hs, hend⟩ := reach_of_boot Layout.small someAddrs (fun _ _ => True) [.userinit initproc]
    (fun s => match step Layout.small someAddrs s (.ecall initproc (callRegs 24 0 0) 0 noEnv 0) with
      | .error (.fault .null) => true
      | _ => false)
    (by decide +kernel)
  refine ⟨s, hs, ?_⟩
  split at hend
  · assumption
  · cases hend

/-! ## §3. From the delivery to `sigreturn`. -/

/-- The steps while process `p` is in its handler: it does not call `sigalarm`, and it has not left yet. -/
def inHandler (p : Slot) : AlarmStep → Bool
  | .ecall q regs _ _ _ =>
    q != p || !(callNum regs == SYS_sigalarm || callNum regs == SYS_sigreturn || callNum regs == SYS_exit)
  | .killed q => q != p
  | _ => true

variable {x : AlarmStep}

theorem not_calls {num : UInt32} (h : inHandler p x = true)
    (hnum : num = SYS_sigalarm ∨ num = SYS_sigreturn ∨ num = SYS_exit) : ¬ Calls x p num := by
  rintro ⟨regs, epc, env, tp, rfl, rfl⟩
  obtain hnum | hnum | hnum := hnum
  · simp [inHandler, hnum] at h
  · simp [inHandler, hnum] at h
  · simp [inHandler, hnum] at h

/-- In its handler a process keeps its saved frame, and no alarm is delivered to it. -/
theorem Touch.handler {y y' : AlarmProc} (h : Touch x p y y') (hx : inHandler p x = true)
    (hlive : y.state = .RUNNABLE) (hflag : y.alarm_flag = false) :
    y'.state = .RUNNABLE ∧ y'.alarm_flag = false ∧ y'.saved = y.saved := by
  cases h with
  | same | masked m | ticked _ _ => exact ⟨hlive, hflag, rfl⟩
  | freed hdead =>
    obtain hdead | hdead := hdead
    · rw [hlive] at hdead
      cases hdead
    · rw [hlive] at hdead
      cases hdead
  | started a m hdead =>
    rw [hlive] at hdead
    cases hdead
  | exited hexit =>
    obtain rfl | hexit := hexit
    · simp [inHandler] at hx
    · exact absurd hexit (not_calls hx (.inr (.inr rfl)))
  | alarmed t w hc => exact absurd hc (not_calls hx (.inl rfl))
  | returned a0 hc => exact absurd hc (not_calls hx (.inr (.inl rfl)))
  | delivered b tf _ hdel =>
    rw [AlarmProc.delivers, hflag] at hdel
    cases hdel

/-- **A handler is invisible to the interrupted code** in the runs that reap no process inside its handler: whatever
happens between the delivery and `sigreturn`, the call returns with `epc` and the general registers of the interrupt,
and with the kernel's words of the hart it returns on. -/
theorem sigreturn_restores {s₀ s₁ s₂ : AlarmSys} {regs : Nat → UInt64} {epc tp : UInt64} (h : CleanReach L K s₀)
    (hdel : (s₀.proc p).delivers = true) (htimer : step L K s₀ (.timer p regs epc tp) = .ok s₁)
    (hrun : Lib.Reach (Eq s₁) (fun s x => s.reapsClean x = true ∧ inHandler p x = true) (step L K) s₂)
    (regs' : Nat → UInt64) (epc' : UInt64) (env : CallEnv) (tp' : UInt64) (hnum : callNum regs' = SYS_sigreturn) :
    ∃ s₃ a, step L K s₂ (.ecall p regs' epc' env tp') = .ok s₃ ∧ (s₃.proc p).trapframe = some a
      ∧ (∀ k, isUser k = true → word (s₃.km.mem a) k = if k = EPC then epc else regs k)
      ∧ ∀ k, isKernel k = true → word (s₃.km.mem a) k = kernelWord K p tp' k := by
  -- the delivery saves the context of the interrupt
  have hinv₁ : s₁.Inv L := h.inv.timer htimer
  obtain ⟨tf, hlive₁, hflag₁, hsaved₁, htf⟩ : ∃ tf, (s₁.proc p).state = .RUNNABLE ∧ (s₁.proc p).alarm_flag = false
      ∧ (s₁.proc p).saved = some tf
      ∧ ∀ k, isUser k = true → word tf k = if k = EPC then epc else regs k := by
    obtain ⟨e, a, d, henter, halarm, rfl⟩ := timer_ok htimer
    obtain ⟨hlive, htf, he⟩ := enter_ok henter
    have hproc := enter_proc henter
    obtain ⟨b, hb⟩ := ((h.inv.enter henter).alarm (hproc ▸ htf) halarm).2 (hproc ▸ hdel)
    rw [proc_usertrapret, hb]
    refine ⟨e.km.mem a, ?_, rfl, rfl, fun k hk => ?_⟩
    · rw [hproc]
      exact hlive
    · rw [he, page_setPage, word_saveUser, if_pos hk]
  -- and the handler keeps it
  have hkept : s₂.Inv L ∧ (s₂.proc p).state = .RUNNABLE ∧ (s₂.proc p).alarm_flag = false
      ∧ (s₂.proc p).saved = some tf := by
    refine hrun.invariant (I := fun s => s.Inv L ∧ (s.proc p).state = .RUNNABLE ∧ (s.proc p).alarm_flag = false
      ∧ (s.proc p).saved = some tf) (fun s hs => ?_) fun s x s' hs hx hstep => ?_
    · rw [← hs]
      exact ⟨hinv₁, hlive₁, hflag₁, hsaved₁⟩
    · obtain ⟨hinv, hlive, hflag, hsaved⟩ := hs
      obtain ⟨hlive', hflag', hsaved'⟩ := (step_touch hstep p).handler hx.2 hlive hflag
      exact ⟨hinv.step hx.1 hstep, hlive', hflag', hsaved'.trans hsaved⟩
  obtain ⟨hinv, hlive, -, hsaved⟩ := hkept
  obtain ⟨a, ha⟩ := Option.ne_none_iff_exists'.mp ((hinv.slot p).live (by rw [hlive]; nofun))
  obtain ⟨b, hb, hword⟩ := (hinv.slot p).frame tf hsaved
  obtain ⟨s₃, hstep, ha₃, -, huser, hkernel⟩ :=
    sigreturn_ecall (K := K) hinv epc' tp' env hlive ha hb hnum
  refine ⟨s₃, a, hstep, ha₃, fun k hk => ?_, hkernel⟩
  rw [huser k hk, hword k (isUser_lt hk).1, htf k hk]

/-- A step, executed. -/
def stepTo (x : AlarmStep) (test : AlarmSys → Bool) (s : AlarmSys) : Bool :=
  match step Layout.small someAddrs s x with
  | .ok s' => test s'
  | .error _ => false

theorem stepTo_ok {test : AlarmSys → Bool} (h : stepTo x test s = true) :
    ∃ s', step Layout.small someAddrs s x = .ok s' ∧ test s' = true := by
  unfold stepTo at h
  split at h
  · rename_i s' hrun
    exact ⟨s', hrun, h⟩
  · cases h

/-- The child is interrupted at 8 with all registers 7, its handler makes a system call and is interrupted in turn. -/
theorem sigreturn_restores_childAlarm :
    ∃ s₀ s₁ s₂ s₃ a, CleanReach Layout.small someAddrs s₀
      ∧ step Layout.small someAddrs s₀ (.timer child (fun _ => 7) 8 0) = .ok s₁
      ∧ step Layout.small someAddrs s₂ (.ecall child (callRegs 24 0 0) 72 noEnv 1) = .ok s₃
      ∧ (s₃.proc child).trapframe = some a
      ∧ ∀ k, isUser k = true → word (s₃.km.mem a) k = if k = EPC then 8 else 7 := by
  obtain ⟨s₀, hs₀, hend⟩ := reach_of_boot Layout.small someAddrs (fun s x => s.reapsClean x = true) (childAlarm.take 3)
    (fun s => (s.proc child).delivers && stepTo (.timer child (fun _ => 7) 8 0)
      (fun s => Lib.reaches (fun (s : AlarmSys) x => s.reapsClean x = true ∧ inHandler child x = true)
        (step Layout.small someAddrs) s [.ecall child (callRegs 11 0 0) 64 noEnv 0, .timer child (fun _ => 9) 68 1] fun _ => true) s)
    (by decide +kernel)
  obtain ⟨hdel, hsteps⟩ := Bool.and_eq_true_iff.mp hend
  obtain ⟨s₁, htimer, hsteps⟩ := stepTo_ok hsteps
  obtain ⟨s₂, hs₂, -⟩ := Lib.Reach.of_reaches _ _ (Eq.refl s₁) hsteps
  obtain ⟨s₃, a, hrun, ha, huser, -⟩ :=
    sigreturn_restores hs₀ hdel htimer hs₂ (callRegs 24 0 0) 72 noEnv 1 (by decide)
  exact ⟨s₀, s₁, s₂, s₃, a, hs₀, htimer, hrun, ha, huser⟩

/-- Another child of `init`. -/
def victim : Slot := ⟨2, by decide⟩

/-- `init` forks two children.  The first exits in its handler and is reaped, and the page of its backup is free when the
second calls `sigalarm`. -/
def staleBackup : List AlarmStep :=
  childAlarm.take 2 ++ [.ecall initproc (callRegs 1 0 0) 4 (envOf victim) 0] ++ childAlarm.drop 2 ++
    [.ecall child (callRegs 2 0 0) 64 noEnv 0, .ecall initproc (callRegs 3 0 0) 8 (envOf child) 0,
      .ecall victim (callRegs 23 1 64) 4 noEnv 0]

/-- A third child takes the slot of the first, exits and is reaped; the page freed with it is used elsewhere. -/
def slotReused : List AlarmStep :=
  [.ecall initproc (callRegs 1 0 0) 12 (envOf child) 0, .ecall child (callRegs 2 0 0) 4 noEnv 0,
    .ecall initproc (callRegs 3 0 0) 16 (envOf child) 0, .kalloc]

/-- **The backup of one process is freed with another**: the second child gets as its backup the page that the slot of
the first still refers to, and returns from its handler to an address it was not interrupted at. -/
theorem stale_backup_restored :
    ∃ s₀ s₁ s₂ s₃ a, Lib.Reach (Init Layout.small) (fun _ _ => True) (step Layout.small someAddrs) s₀
      ∧ (s₀.proc victim).delivers = true ∧ step Layout.small someAddrs s₀ (.timer victim (fun _ => 7) 8 0) = .ok s₁
      ∧ Lib.Reach (Eq s₁) (fun _ x => inHandler victim x = true) (step Layout.small someAddrs) s₂
      ∧ step Layout.small someAddrs s₂ (.ecall victim (callRegs 24 0 0) 64 noEnv 0) = .ok s₃
      ∧ (s₃.proc victim).trapframe = some a ∧ word (s₃.km.mem a) EPC ≠ 8 := by
  obtain ⟨s₀, hs₀, hend⟩ := reach_of_boot Layout.small someAddrs (fun _ _ => True) staleBackup
    (fun s => (s.proc victim).delivers && stepTo (.timer victim (fun _ => 7) 8 0)
      (fun s => Lib.reaches (fun (_ : AlarmSys) x => inHandler victim x = true) (step Layout.small someAddrs) s slotReused
        (stepTo (.ecall victim (callRegs 24 0 0) 64 noEnv 0) fun s =>
          (s.proc victim).trapframe.any fun a => word (s.km.mem a) EPC != 8)) s)
    (by decide +kernel)
  obtain ⟨hdel, hsteps⟩ := Bool.and_eq_true_iff.mp hend
  obtain ⟨s₁, htimer, hsteps⟩ := stepTo_ok hsteps
  obtain ⟨s₂, hs₂, hsteps⟩ := Lib.Reach.of_reaches _ _ (Eq.refl s₁) hsteps
  obtain ⟨s₃, hrun, hword⟩ := stepTo_ok hsteps
  cases ha : (s₃.proc victim).trapframe with
  | none =>
    rw [ha] at hword
    cases hword
  | some a =>
    rw [ha, Option.any_some] at hword
    exact ⟨s₀, s₁, s₂, s₃, a, hs₀, hdel, htimer, hs₂, hrun, ha, bne_iff_ne.mp hword⟩

end Xv6.AlarmSys
