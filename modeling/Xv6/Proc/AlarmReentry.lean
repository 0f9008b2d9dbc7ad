/-
  Xv6.Proc.AlarmReentry — an alarm inside an alarm handler.

  Only `alarm_flag` keeps an alarm from being delivered while the handler of
  the last one runs.  A delivery clears it and `sigreturn` sets it again, but
  `sigalarm` sets it as well, also inside a handler.

  Main results:
    * `step_touch`     — all that a step can do to a slot,
    * `AlarmSys.not_reentered` — runs in which no handler calls `sigalarm`,
    * `AlarmSys.reentered`     — a run in which one does.
-/
import Xv6.Proc.Alarm

namespace Xv6.AlarmSys

open Function (update update_idem update_of_ne update_self)

variable {L : Layout} {K : KernelAddrs} {s s' : AlarmSys} {p q c : Slot} {a : Nat}

/-! ## §1. What the operations do to the slots. -/

/-- The number of the system call that a trap makes. -/
def callNum (regs : Nat → UInt64) : UInt32 := (regs A7).toUInt32

/-- The process makes the system call in this step. -/
def Calls (x : AlarmStep) (q : Slot) (num : UInt32) : Prop :=
  ∃ regs epc env tp, x = .ecall q regs epc env tp ∧ callNum regs = num

/-- The process takes a timer interrupt in this step. -/
def Ticks (x : AlarmStep) (q : Slot) : Prop := ∃ regs epc tp, x = .timer q regs epc tp

/-- **All that a step can do to a slot.** -/
inductive Touch (x : AlarmStep) (q : Slot) (y : AlarmProc) : AlarmProc → Prop
  | same : Touch x q y y
  | freed : y.state = .ZOMBIE ∨ y.state = .UNUSED → Touch x q y y.freed
  | started (a : Nat) (m : UInt32) : y.state = .UNUSED → Touch x q y { y.found a with state := .RUNNABLE, mask := m }
  | masked (m : UInt32) : Touch x q y { y with mask := m }
  | exited : x = .killed q ∨ Calls x q SYS_exit → Touch x q y { y with state := .ZOMBIE }
  | alarmed (t h : UInt64) : Calls x q SYS_sigalarm → Touch x q y (y.sigalarm t h)
  | returned (a0 : UInt64) : Calls x q SYS_sigreturn → Touch x q y (y.returned a0)
  | ticked : Ticks x q → y.delivers = false → Touch x q y { y with current_ticks := y.current_ticks + 1 }
  | delivered (b : Nat) (tf : Page) : Ticks x q → y.delivers = true → Touch x q y (y.delivered b tf)

theorem freeproc_proc (h : freeproc L s c = .ok s') : s'.proc = update s.proc c (s.proc c).freed := by
  unfold freeproc at h
  split at h
  · cases h
  · split at h
    · cases h
    · cases h
      rfl

/-- A slot that `allocproc` gives back is as `freeproc` leaves it. -/
theorem allocproc_proc {ok : Bool} {r : Option Nat} (h : allocproc L s c ok = .ok (s', r)) :
    (s.proc c).state = .UNUSED ∧ ((r = none ∧ s'.proc = update s.proc c (s.proc c).freed)
        ∨ ∃ a, r = some a ∧ s'.proc = update s.proc c ((s.proc c).found a)) := by
  have hagain : ∀ (km : Kmem) (y : AlarmProc),
      freeproc L (({ s with km := km } : AlarmSys).setProc c y) c = .ok s' → y.freed = (s.proc c).freed →
      s'.proc = update s.proc c (s.proc c).freed := by
    intro km y hfree hy
    rw [freeproc_proc hfree]
    show update (update s.proc c y) c (update s.proc c y c).freed = _
    rw [update_idem, update_self, hy]
  unfold allocproc at h
  split at h
  · cases h
  rename_i hstate
  refine ⟨not_not.mp fun hne => hstate (.inl hne), ?_⟩
  split at h
  · rename_i km _
    split at h
    · cases h
    · rename_i s₁ hfree
      cases h
      exact .inl ⟨rfl, hagain km _ hfree rfl⟩
  rename_i km b _
  dsimp only at h
  split at h
  · cases h
    exact .inr ⟨b, rfl, rfl⟩
  · split at h
    · cases h
    · rename_i s₁ hfree
      cases h
      exact .inl ⟨rfl, hagain km _ hfree rfl⟩

variable {x : AlarmStep}

theorem touch_update {y : AlarmProc} (hy : Touch x p (s.proc p) y) (q : Slot) :
    Touch x q (s.proc q) (update s.proc p y q) := by
  by_cases hq : q = p
  · rw [hq, update_self]
    exact hy
  · rw [update_of_ne hq]
    exact .same

variable {env : CallEnv}

theorem fork_touch {ret : UInt64} (h : AlarmSys.fork L s p a env = .ok (s', ret))
    (q : Slot) : Touch x q (s.proc q) (s'.proc q) := by
  unfold AlarmSys.fork at h
  split at h
  · split at h
    · cases h
    · cases h
      exact .same
  rename_i c _
  split at h
  · cases h
  · rename_i s₁ halloc
    cases h
    obtain ⟨hstate, ⟨-, hproc⟩ | ⟨a, hr, -⟩⟩ := allocproc_proc halloc
    · rw [hproc]
      exact touch_update (.freed (.inr hstate)) q
    · cases hr
  rename_i s₁ b halloc
  cases h
  obtain ⟨hstate, ⟨hr, -⟩ | ⟨a, hr, hproc⟩⟩ := allocproc_proc halloc
  · cases hr
  · show Touch x q (s.proc q) (update s₁.proc c _ q)
    rw [hproc, update_idem, update_self]
    exact touch_update (.started a _ hstate) q

theorem sigreturn_touch (hx : Calls x p SYS_sigreturn) (h : AlarmSys.sigreturn L s p a = .ok s')
    (q : Slot) : Touch x q (s.proc q) (s'.proc q) := by
  unfold AlarmSys.sigreturn at h
  split at h
  · cases h
  · dsimp only at h
    split at h
    · cases h
    · cases h
      exact touch_update (.returned _ hx) q

theorem dispatch_touch {num : UInt32} {r : Option UInt64} (hx : Calls x p num)
    (h : AlarmSys.dispatch L s p a num env = .ok (s', r)) (q : Slot) : Touch x q (s.proc q) (s'.proc q) := by
  unfold AlarmSys.dispatch at h
  split at h
  · split at h
    · cases h
    · rename_i s₁ ret hfork
      cases h
      exact fork_touch hfork q
  split at h
  · rename_i hnum
    split at h
    · cases h
    · cases h
      exact touch_update (.exited (.inr (hnum ▸ hx))) q
  split at h
  · split at h
    · cases h
      exact .same
    split at h
    · cases h
    rename_i hzombie
    split at h
    · cases h
    · rename_i s₁ hfree
      cases h
      rw [freeproc_proc hfree]
      exact touch_update (.freed (.inl (not_not.mp hzombie))) q
  split at h
  · split at h
    · cases h
      exact .same
    · cases h
      exact .same
  split at h
  · cases h
    exact touch_update (.masked _) q
  split at h
  · rename_i hnum
    cases h
    exact touch_update (.alarmed _ _ (hnum ▸ hx)) q
  split at h
  · rename_i hnum
    split at h
    · cases h
    · rename_i s₁ hret
      cases h
      exact sigreturn_touch (hnum ▸ hx) hret q
  · cases h
    exact .same

theorem proc_setPage (s : AlarmSys) (a : Nat) (page : Page) : (s.setPage a page).proc = s.proc := rfl

theorem proc_usertrapret (s : AlarmSys) (p : Slot) (a : Nat) (tp : UInt64) : (s.usertrapret K p a tp).proc = s.proc :=
  rfl

theorem page_setPage (s : AlarmSys) (a : Nat) (page : Page) : (s.setPage a page).km.mem a = page :=
  update_self ..

theorem proc_trace (s : AlarmSys) (p : Slot) (num : UInt32) (v w : UInt64) : (s.trace p num v w).proc = s.proc := by
  unfold AlarmSys.trace
  split <;> rfl

theorem proc_patchA0 (s : AlarmSys) (p : Slot) (a : Nat) (num : UInt32) : (s.patchA0 p a num).proc = s.proc := by
  unfold AlarmSys.patchA0
  split <;> rfl

theorem syscall_touch {r : Bool} (hx : Calls x p (Lib.word (s.km.mem a) A7).toUInt32)
    (h : AlarmSys.syscall L s p a env = .ok (s', r)) (q : Slot) : Touch x q (s.proc q) (s'.proc q) := by
  unfold AlarmSys.syscall at h
  dsimp only at h
  split at h
  · split at h
    · cases h
    · rename_i s₁ hdis
      cases h
      exact dispatch_touch hx hdis q
    · rename_i s₁ ret hdis
      cases h
      rw [proc_patchA0, proc_trace]
      exact dispatch_touch hx hdis q
  · cases h
    rw [proc_patchA0]
    exact .same

theorem alarm_touch (hx : Ticks x p) (h : s.alarm p a = .ok s') (q : Slot) : Touch x q (s.proc q) (s'.proc q) := by
  unfold AlarmSys.alarm at h
  dsimp only at h
  split at h
  · rename_i hdel
    split at h
    · cases h
    · cases h
      exact touch_update (.delivered _ _ hx hdel) q
  rename_i hdel
  split at h
  · cases h
    exact touch_update (.ticked hx (Bool.not_eq_true _ ▸ hdel)) q
  · cases h
    exact .same

/-! ## §2. The parts of a trap. -/

theorem word_saveUser (tf : Page) (regs : Nat → UInt64) (epc : UInt64) (k : Nat) :
    Lib.word (saveUser tf regs epc) k = if isUser k then (if k = EPC then epc else regs k) else Lib.word tf k :=
  Lib.word_setWords ..

/-- The number that `syscall` reads. -/
theorem word_a7 (tf : Page) (regs : Nat → UInt64) (epc : UInt64) : Lib.word (saveUser tf regs epc) A7 = regs A7 := by
  have huser : isUser A7 = true := by decide
  have hne : ¬ A7 = EPC := by decide
  rw [word_saveUser, if_pos huser, if_neg hne]

variable {regs : Nat → UInt64} {epc : UInt64}

variable (h : s.enter p regs epc = .ok (s', a))
include h

/-- What a trap starts with. -/
theorem enter_ok : (s.proc p).state = .RUNNABLE ∧ (s.proc p).trapframe = some a
      ∧ s' = s.setPage a (saveUser (s.km.mem a) regs epc) := by
  unfold AlarmSys.enter at h
  split at h
  · rename_i hstate htf
    cases h
    exact ⟨hstate, htf, rfl⟩
  · cases h

theorem enter_proc : s'.proc = s.proc := by
  rw [(enter_ok h).2.2, proc_setPage]

theorem enter_num : (Lib.word (s'.km.mem a) A7).toUInt32 = callNum regs := by
  rw [(enter_ok h).2.2, page_setPage, word_a7]
  rfl

omit h

variable {tp : UInt64}

theorem ecall_ok
    (h : AlarmSys.step L K s (.ecall p regs epc env tp) = .ok s') :
    ∃ s₁ b s₂ r, s.enter p regs (epc + 4) = .ok (s₁, b) ∧ AlarmSys.syscall L s₁ p b env = .ok (s₂, r)
      ∧ s' = if r then s₂.usertrapret K p b tp else s₂ := by
  obtain ⟨⟨s₁, b⟩, henter, hrest⟩ := Lib.bind_ok h
  obtain ⟨⟨s₂, r⟩, hsys, hend⟩ := Lib.bind_ok hrest
  exact ⟨s₁, b, s₂, r, henter, hsys, (Except.ok.inj hend).symm⟩

theorem timer_ok (h : AlarmSys.step L K s (.timer p regs epc tp) = .ok s') :
    ∃ s₁ b s₂, s.enter p regs epc = .ok (s₁, b) ∧ s₁.alarm p b = .ok s₂ ∧ s' = s₂.usertrapret K p b tp := by
  obtain ⟨⟨s₁, b⟩, henter, hrest⟩ := Lib.bind_ok h
  obtain ⟨s₂, halarm, hend⟩ := Lib.bind_ok hrest
  exact ⟨s₁, b, s₂, henter, halarm, (Except.ok.inj hend).symm⟩

theorem trap_ok (h : AlarmSys.step L K s (.trap p regs epc tp) = .ok s') :
    ∃ s₁ b, s.enter p regs epc = .ok (s₁, b) ∧ s' = s₁.usertrapret K p b tp := by
  obtain ⟨⟨s₁, b⟩, henter, hend⟩ := Lib.bind_ok h
  exact ⟨s₁, b, henter, (Except.ok.inj hend).symm⟩

theorem userinit_touch (h : AlarmSys.step L K s (.userinit c) = .ok s') (q : Slot) :
    Touch (.userinit c) q (s.proc q) (s'.proc q) := by
  dsimp only [AlarmSys.step] at h
  split at h
  · cases h
  · cases h
  rename_i s₁ b halloc
  cases h
  obtain ⟨hstate, ⟨hr, -⟩ | ⟨a, hr, hproc⟩⟩ := allocproc_proc halloc
  · cases hr
  · show Touch _ q (s.proc q) (update s₁.proc c _ q)
    rw [hproc, update_idem, update_self]
    exact touch_update (.started a (s.proc c).mask hstate) q

/-- **One step** touches a slot in one of the ways of `Touch`. -/
theorem step_touch (h : AlarmSys.step L K s x = .ok s') (q : Slot) : Touch x q (s.proc q) (s'.proc q) := by
  cases x with
  | userinit c => exact userinit_touch h q
  | ecall p regs epc env tp =>
    obtain ⟨s₁, b, s₂, r, henter, hsys, rfl⟩ := ecall_ok h
    have hcall : Touch _ q (s₁.proc q) (s₂.proc q) :=
      syscall_touch ⟨regs, epc, env, tp, rfl, (enter_num henter).symm⟩ hsys q
    rw [enter_proc henter] at hcall
    split
    · rw [proc_usertrapret]
      exact hcall
    · exact hcall
  | timer p regs epc tp =>
    obtain ⟨s₁, b, s₂, henter, halarm, rfl⟩ := timer_ok h
    rw [proc_usertrapret, ← enter_proc henter]
    exact alarm_touch ⟨regs, epc, tp, rfl⟩ halarm q
  | trap p regs epc tp =>
    obtain ⟨s₁, b, henter, rfl⟩ := trap_ok h
    rw [proc_usertrapret, enter_proc henter]
    exact .same
  | killed p =>
    dsimp only [AlarmSys.step] at h
    split at h
    · cases h
    · split at h
      · cases h
      · cases h
        exact touch_update (.exited (.inl rfl)) q
  | kalloc =>
    dsimp only [AlarmSys.step] at h
    split at h
    · cases h
      exact .same
    · cases h
      exact .same
  | kfree r | increase_num_ref r =>
    dsimp only [AlarmSys.step] at h
    split at h
    · split at h
      · cases h
      · cases h
        exact .same
    · cases h
  | write r page =>
    obtain ⟨-, rfl⟩ := Lib.guard_ok h
    exact .same

/-! ## §3. Alarms inside handlers. -/

/-- No process calls `sigalarm` between a delivery and its `sigreturn`. -/
def outsideHandler (s : AlarmSys) : AlarmStep → Bool
  | .ecall p regs _ _ _ => callNum regs != SYS_sigalarm || (s.proc p).outstanding == 0
  | _ => true

/-- At most one alarm is outstanding, and then none is delivered. -/
def OneAtATime (x : AlarmProc) : Prop := x.outstanding ≤ 1 ∧ (x.outstanding = 1 → x.delivers = false)

/-- The same by the flag. -/
def Masked (x : AlarmProc) : Prop := x.outstanding ≤ 1 ∧ (x.outstanding = 1 → x.alarm_flag = false)

/-- **What a step does to a slot** keeps alarms one at a time, `sigalarm` outside handlers only. -/
theorem Masked.touch {y y' : AlarmProc} (h : Masked y)
    (hsig : Calls x q SYS_sigalarm → y.outstanding = 0) (ht : Touch x q y y') : Masked y' := by
  cases ht with
  | same | masked m | exited _ | ticked _ _ => exact h
  | freed _ => exact ⟨Nat.zero_le _, nofun⟩
  | started a m _ => exact ⟨h.1, fun _ => rfl⟩
  | alarmed t w hc =>
    have hzero := hsig hc
    refine ⟨h.1, fun hone => ?_⟩
    have hone : y.outstanding = 1 := hone
    omega
  | returned a0 _ =>
    have hle := h.1
    refine ⟨?_, fun hone => ?_⟩
    · show y.outstanding - 1 ≤ 1
      omega
    · have hone : y.outstanding - 1 = 1 := hone
      omega
  | delivered b tf _ hdel =>
    -- the flag is set, so nothing is outstanding
    have hflag : y.alarm_flag = true := (Bool.and_eq_true_iff.mp hdel).1
    have hle := h.1
    have hzero : y.outstanding = 0 := by
      by_contra hne
      have hone : y.outstanding = 1 := by omega
      rw [h.2 hone] at hflag
      cases hflag
    refine ⟨?_, fun _ => rfl⟩
    show y.outstanding + 1 ≤ 1
    omega

theorem Masked.oneAtATime {x : AlarmProc} (h : Masked x) : OneAtATime x := by
  refine ⟨h.1, fun hone => ?_⟩
  unfold AlarmProc.delivers
  rw [h.2 hone]
  rfl

/-- A timer interrupt that delivers nothing leaves the backup. -/
theorem alarm_keeps (hdel : (s.proc p).delivers = false) (hrun : s.alarm p a = .ok s') :
    (s'.proc p).outstanding = (s.proc p).outstanding
      ∧ (s'.proc p).trapframe_backup = (s.proc p).trapframe_backup ∧ (s'.proc p).saved = (s.proc p).saved := by
  unfold AlarmSys.alarm at hrun
  dsimp only at hrun
  rw [hdel] at hrun
  simp only [Bool.false_eq_true, if_false] at hrun
  split at hrun
  · cases hrun
    simp only [AlarmSys.setProc, update_self, and_self]
  · cases hrun
    exact ⟨rfl, rfl, rfl⟩

/-- **Handlers are not re-entered** in the runs in which no handler calls `sigalarm`: a process has at most one alarm
outstanding, and while it has one a timer interrupt delivers none and leaves its backup. -/
theorem not_reentered (h : Lib.Reach (Init L) (fun s x => s.outsideHandler x = true) (step L K) s) (p : Slot) :
    OneAtATime (s.proc p) ∧ ∀ regs epc tp s', s.step L K (.timer p regs epc tp) = .ok s' → (s.proc p).outstanding = 1 →
        (s'.proc p).outstanding = 1 ∧ (s'.proc p).trapframe_backup = (s.proc p).trapframe_backup
          ∧ (s'.proc p).saved = (s.proc p).saved := by
  have hmasked : ∀ q, Masked (s.proc q) := by
    refine h.invariant (I := fun s => ∀ q, Masked (s.proc q)) (fun s hs q => ?_) fun s x s' hs hout hrun => ?_
    · obtain ⟨-, -, -, hproc⟩ := hs
      rw [hproc q]
      exact ⟨Nat.zero_le _, nofun⟩
    · refine fun q => (hs q).touch (fun hcall => ?_) (step_touch hrun q)
      obtain ⟨regs, epc, env, tp, rfl, hnum⟩ := hcall
      simpa only [outsideHandler, hnum, bne_self_eq_false, Bool.false_or, beq_iff_eq] using hout
  refine ⟨(hmasked p).oneAtATime, fun regs epc tp s' hrun hone => ?_⟩
  have hdel := (hmasked p).oneAtATime.2 hone
  obtain ⟨s₁, b, s₂, henter, halarm, rfl⟩ := timer_ok hrun
  rw [← enter_proc henter] at hdel hone ⊢
  obtain ⟨hout, hback, hsaved⟩ := alarm_keeps hdel halarm
  exact ⟨hout.trans hone, hback, hsaved⟩

/-- Kernel addresses, any of them. -/
def someAddrs : KernelAddrs := ⟨0, 0, fun _ => 0⟩

/-- The environment of a system call that needs none. -/
def noEnv : CallEnv := ⟨none, true, 0, 0, 0⟩

/-- `init` calls `sigalarm(1, 64)`, and the next timer interrupt delivers the alarm. -/
def firstAlarm : List AlarmStep :=
  [.userinit initproc, .ecall initproc (callRegs 23 1 64) 0 noEnv 0, .timer initproc (fun _ => 7) 8 0]

/-- In its handler, a process is not interrupted again. -/
theorem not_reentered_firstAlarm :
    ∃ s, Lib.Reach (Init Layout.small) (fun s x => s.outsideHandler x = true) (step Layout.small someAddrs) s
      ∧ (s.proc initproc).outstanding = 1 ∧ OneAtATime (s.proc initproc) := by
  obtain ⟨s, hs, hend⟩ := reach_of_boot Layout.small someAddrs (fun s x => s.outsideHandler x = true)
    (firstAlarm ++ [.timer initproc (fun _ => 9) 64 0])
    (fun s => (s.proc initproc).outstanding = 1) (by decide +kernel)
  exact ⟨s, hs, decide_eq_true_eq.mp hend, (not_reentered hs initproc).1⟩

/-- **A handler that calls `sigalarm` is re-entered**: the second delivery overwrites `trapframe_backup`, and the page of
the first is lost. -/
theorem reentered : ∃ s, Lib.Reach (Init Layout.small) (fun _ _ => True) (step Layout.small someAddrs) s
      ∧ ¬ OneAtATime (s.proc initproc) ∧ s.lost ≠ 0 := by
  obtain ⟨s, hs, hend⟩ := reach_of_boot Layout.small someAddrs (fun _ _ => True)
    (firstAlarm ++ [.ecall initproc (callRegs 23 1 64) 64 noEnv 0, .timer initproc (fun _ => 9) 72 0])
    (fun s => (s.proc initproc).outstanding = 2 ∧ s.lost ≠ 0) (by decide +kernel)
  obtain ⟨htwo, hlost⟩ := decide_eq_true_eq.mp hend
  refine ⟨s, hs, fun hone => ?_, hlost⟩
  have := hone.1
  omega

end Xv6.AlarmSys
