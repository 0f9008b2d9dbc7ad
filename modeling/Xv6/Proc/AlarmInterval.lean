/-
  Xv6.Proc.AlarmInterval — when an alarm is delivered (`kernel/proc.c`,
  `kernel/trap.c`; the RR build).

  An alarm falls due when `current_ticks`, counted up at each timer interrupt
  from user space, reaches `alarm_ticks`.  `sigreturn` sets the counter to
  zero; `sigalarm` does not, nor does it treat the interval 0 as none: it sets
  `alarm_flag` whatever its arguments are.

  A history is the list of steps since the call of `sigalarm`.  Of it only the
  timer interrupts of the process since its last `sigreturn` matter.

  Main results:
    * `interval`        — a call that finds the counter at zero,
    * `early_alarm`     — one that does not,
    * `switched_off`    — `sigalarm(0, 0)` in a handler that returns in time,
    * `redirected_to_0` — `sigalarm(0, 0)` elsewhere.
-/
import Xv6.Proc.AlarmReturn

namespace Xv6.AlarmSys

variable {L : Layout} {K : KernelAddrs} {s s' : AlarmSys} {p : Slot} {a : Nat}

/-! ## §1. The steps that matter. -/

/-- A timer interrupt of `p`. -/
def isTimer (p : Slot) : AlarmStep → Bool
  | .timer q _ _ _ => q == p
  | _ => false

/-- A call of `num` by `p`. -/
def isCall (p : Slot) (num : UInt32) : AlarmStep → Bool
  | .ecall q regs _ _ _ => q == p && callNum regs == num
  | _ => false

/-- `p` neither sets another alarm nor exits. -/
def undisturbed (p : Slot) (x : AlarmStep) : Bool :=
  !(isCall p SYS_sigalarm x || isCall p SYS_exit x || match x with
    | .killed q => q == p
    | _ => false)

variable {x : AlarmStep}

theorem isTimer_of_ticks (h : Ticks x p) : isTimer p x = true := by
  obtain ⟨regs, epc, tp, rfl⟩ := h
  exact beq_self_eq_true p

theorem isCall_of_calls {num : UInt32} (h : Calls x p num) : isCall p num x = true := by
  obtain ⟨regs, epc, env, tp, rfl, rfl⟩ := h
  simp [isCall]

/-- What the alarm of a process depends on. -/
structure SameAlarm (y y' : AlarmProc) : Prop where
  state : y'.state = y.state
  trapframe : y'.trapframe = y.trapframe
  flag : y'.alarm_flag = y.alarm_flag
  ticks : y'.alarm_ticks = y.alarm_ticks
  current : y'.current_ticks = y.current_ticks
  handler : y'.alarm_handler = y.alarm_handler

/-- **The other steps** leave the alarm of a live process alone. -/
theorem Touch.sameAlarm {y y' : AlarmProc} (h : Touch x p y y') (hlive : y.state = .RUNNABLE)
    (hx : undisturbed p x = true) (htimer : isTimer p x = false) (hret : isCall p SYS_sigreturn x = false) :
    SameAlarm y y' := by
  simp only [undisturbed, Bool.not_eq_true', Bool.or_eq_false_iff] at hx
  cases h with
  | same | masked m => exact ⟨rfl, rfl, rfl, rfl, rfl, rfl⟩
  | freed hdead | started a m hdead =>
    rw [hlive] at hdead
    exact absurd hdead (by decide)
  | exited hexit =>
    rcases hexit with rfl | hexit
    · simp at hx
    · rw [isCall_of_calls hexit] at hx
      simp at hx
  | alarmed t w hc =>
    rw [isCall_of_calls hc] at hx
    simp at hx
  | returned a0 hc =>
    rw [isCall_of_calls hc] at hret
    cases hret
  | ticked ht _ | delivered b tf ht _ =>
    rw [isTimer_of_ticks ht] at htimer
    cases htimer

/-! ## §2. Timer interrupts. -/

/-- Where user space goes on. -/
def resumesAt (s : AlarmSys) (p : Slot) (pc : UInt64) : Prop :=
  ∃ a, (s.proc p).trapframe = some a ∧ Lib.word (s.km.mem a) EPC = pc

/-- Whether `kalloc` finds a page does not depend on the contents of memory. -/
theorem kalloc_mem (km : Kmem) (mem : Nat → Page) : (Xv6.kalloc { km with mem := mem }).2 = (Xv6.kalloc km).2 := by
  unfold Xv6.kalloc
  cases km.freelist with
  | nil => rfl
  | cons r next =>
    dsimp only
    split
    · rfl
    · rfl

theorem km_setProc (s : AlarmSys) (p : Slot) (x : AlarmProc) : (s.setProc p x).km = s.km := rfl

/-- `usertrapret` keeps the program counter. -/
theorem epc_usertrapret (s : AlarmSys) (p : Slot) (a : Nat) (tp : UInt64) :
    Lib.word ((s.usertrapret K p a tp).km.mem a) EPC = Lib.word (s.km.mem a) EPC := by
  have hk : isKernel EPC = false := by decide
  rw [AlarmSys.usertrapret, page_setPage, Lib.word_setWords, hk, if_neg Bool.false_ne_true]

theorem epc_saveUser (tf : Page) (regs : Nat → UInt64) (epc : UInt64) : Lib.word (saveUser tf regs epc) EPC = epc := by
  have huser : isUser EPC = true := by decide
  rw [word_saveUser, if_pos huser, if_pos rfl]

/-- What a timer interrupt that delivers nothing leaves in the slot. -/
def counted (y : AlarmProc) : AlarmProc :=
  if y.alarm_flag then { y with current_ticks := y.current_ticks + 1 } else y

theorem alarm_counts (hdel : (s.proc p).delivers = false) :
    ∃ s', s.alarm p a = .ok s' ∧ s'.proc p = counted (s.proc p) ∧ s'.km = s.km := by
  unfold AlarmSys.alarm counted
  dsimp only
  rw [hdel]
  simp only [Bool.false_eq_true, if_false]
  split
  · exact ⟨_, rfl, setProc_self .., rfl⟩
  · exact ⟨_, rfl, rfl, rfl⟩

theorem alarm_delivers (hdel : (s.proc p).delivers = true) {b : Nat} (hb : (Xv6.kalloc s.km).2 = some b) :
    ∃ s', s.alarm p a = .ok s' ∧ s'.proc p = (s.proc p).delivered b (s.km.mem a)
      ∧ Lib.word (s'.km.mem a) EPC = (s.proc p).alarm_handler := by
  unfold AlarmSys.alarm
  rw [if_pos hdel]
  cases hk : Xv6.kalloc s.km with
  | mk km r =>
    rw [hk] at hb
    have hr : r = some b := hb
    subst hr
    refine ⟨_, rfl, setProc_self .., ?_⟩
    rw [km_setProc, page_setPage, setField, Lib.word_setWords, if_pos (beq_self_eq_true _)]

variable {regs : Nat → UInt64} {epc : UInt64}

theorem timer_run {s₁ s₂ : AlarmSys} (tp : UInt64)
    (henter : s.enter p regs epc = .ok (s₁, a)) (halarm : s₁.alarm p a = .ok s₂) :
    AlarmSys.step L K s (.timer p regs epc tp) = .ok (s₂.usertrapret K p a tp) := by
  refine (Lib.bind_of_ok henter).trans ?_
  exact Lib.bind_of_ok halarm

/-- **A timer interrupt that delivers nothing** counts, if the flag is set, and user space goes on where it was. -/
theorem timer_counts (regs : Nat → UInt64) (epc tp : UInt64) (hlive : (s.proc p).state = .RUNNABLE)
    (htf : (s.proc p).trapframe = some a) (hdel : (s.proc p).delivers = false) :
    ∃ s', step L K s (.timer p regs epc tp) = .ok s' ∧ s'.proc p = counted (s.proc p) ∧ s'.resumesAt p epc := by
  have henter := enter_run regs epc hlive htf
  have hpc : Lib.word ((s.setPage a (saveUser (s.km.mem a) regs epc)).km.mem a) EPC = epc := by
    rw [page_setPage, epc_saveUser]
  generalize s.setPage a (saveUser (s.km.mem a) regs epc) = s₁ at henter hpc
  have hproc := enter_proc henter
  obtain ⟨s₂, halarm, hp, hkm⟩ := alarm_counts (a := a) (hproc ▸ hdel : (s₁.proc p).delivers = false)
  rw [hproc] at hp
  refine ⟨_, timer_run tp henter halarm, by rw [proc_usertrapret, hp], a, ?_, ?_⟩
  · rw [proc_usertrapret, hp, counted]
    split
    · exact htf
    · exact htf
  · rw [epc_usertrapret, hkm, hpc]

/-- **A timer interrupt that delivers an alarm** goes on in the handler, if there is a page for the backup. -/
theorem timer_delivers (regs : Nat → UInt64) (epc tp : UInt64) (hlive : (s.proc p).state = .RUNNABLE)
    (htf : (s.proc p).trapframe = some a) (hdel : (s.proc p).delivers = true) (hmem : (Xv6.kalloc s.km).2 ≠ none) :
    ∃ s' b tf, step L K s (.timer p regs epc tp) = .ok s' ∧ s'.proc p = (s.proc p).delivered b tf
      ∧ s'.resumesAt p (s.proc p).alarm_handler := by
  obtain ⟨b, hb⟩ := Option.ne_none_iff_exists'.mp hmem
  have henter := enter_run regs epc hlive htf
  have hb₁ : (Xv6.kalloc (s.setPage a (saveUser (s.km.mem a) regs epc)).km).2 = some b := (kalloc_mem ..).trans hb
  generalize s.setPage a (saveUser (s.km.mem a) regs epc) = s₁ at henter hb₁
  have hproc := enter_proc henter
  obtain ⟨s₂, halarm, hp, hpc⟩ := alarm_delivers (a := a) (hproc ▸ hdel : (s₁.proc p).delivers = true) hb₁
  rw [hproc] at hp hpc
  refine ⟨_, b, _, timer_run tp henter halarm, by rw [proc_usertrapret, hp], a, ?_, ?_⟩
  · rw [proc_usertrapret, hp]
    exact htf
  · rw [epc_usertrapret, hpc]

variable {tp : UInt64}

/-- What a timer interrupt leaves in the slot. -/
theorem timer_slot (h : step L K s (.timer p regs epc tp) = .ok s') :
    ((s.proc p).delivers = false ∧ s'.proc p = counted (s.proc p))
      ∨ ((s.proc p).delivers = true ∧ ∃ b tf, s'.proc p = (s.proc p).delivered b tf) := by
  obtain ⟨s₁, a, s₂, henter, halarm, rfl⟩ := timer_ok h
  rw [proc_usertrapret, ← enter_proc henter]
  cases hdel : (s₁.proc p).delivers with
  | false =>
    obtain ⟨s₃, hrun, hp, -⟩ := alarm_counts (a := a) hdel
    rw [halarm] at hrun
    cases hrun
    exact .inl ⟨rfl, hp⟩
  | true =>
    refine .inr ⟨rfl, ?_⟩
    unfold AlarmSys.alarm at halarm
    rw [if_pos hdel] at halarm
    split at halarm
    · cases halarm
    · cases halarm
      exact ⟨_, _, setProc_self ..⟩

/-! ## §3. System calls. -/

variable {env : CallEnv}

theorem ecall_dispatch {num : UInt32} (hnum : callNum regs = num)
    (hrange : 0 < num ∧ num < NSYSCALLS) (h : step L K s (.ecall p regs epc env tp) = .ok s') :
    ∃ s₁ a s₂ r, s.enter p regs (epc + 4) = .ok (s₁, a) ∧ AlarmSys.dispatch L s₁ p a num env = .ok (s₂, r)
      ∧ s'.proc = s₂.proc := by
  obtain ⟨s₁, a, s₂, r, henter, hsys, rfl⟩ := ecall_ok h
  unfold AlarmSys.syscall at hsys
  rw [enter_num henter, hnum, if_pos hrange] at hsys
  split at hsys
  · cases hsys
  · rename_i s₃ hdis
    obtain ⟨rfl, rfl⟩ := Prod.mk.inj (Except.ok.inj hsys)
    exact ⟨s₁, a, s₃, none, henter, hdis, rfl⟩
  · rename_i s₃ ret hdis
    cases hsys
    refine ⟨s₁, a, s₃, some ret, henter, hdis, ?_⟩
    rw [if_pos rfl, proc_usertrapret, proc_patchA0, proc_trace]
    rfl

/-- The first argument of `sys_sigalarm`, an `int`. -/
def tickArg (regs : Nat → UInt64) : Int32 := (regs A0).toInt64.toInt32

theorem word_saved {k : Nat} (tf : Page) (regs : Nat → UInt64) (epc : UInt64) (huser : isUser k = true) (hk : k ≠ EPC) :
    Lib.word (saveUser tf regs epc) k = regs k := by
  rw [word_saveUser, if_pos huser, if_neg hk]

/-- **The system call `sigalarm`.** -/
theorem sigalarm_ecall (hnum : callNum regs = SYS_sigalarm) (h : step L K s (.ecall p regs epc env tp) = .ok s') :
    (s.proc p).state = .RUNNABLE ∧ (∃ a, (s.proc p).trapframe = some a)
      ∧ s'.proc p = (s.proc p).sigalarm (tickArg regs).toInt64.toUInt64 (regs A1) := by
  obtain ⟨s₁, a, s₂, r, henter, hdis, hproc⟩ := ecall_dispatch hnum (by decide) h
  obtain ⟨hlive, htf, hs₁⟩ := enter_ok henter
  refine ⟨hlive, ⟨a, htf⟩, ?_⟩
  unfold AlarmSys.dispatch at hdis
  dsimp only at hdis
  cases hdis
  rw [hproc, setProc_self, enter_proc henter, hs₁, page_setPage, word_saved _ _ _ (by decide) (by decide),
    word_saved _ _ _ (by decide) (by decide)]
  rfl

/-- **The system call `sigreturn`** restarts the counter. -/
theorem sigreturn_slot (hnum : callNum regs = SYS_sigreturn)
    (h : step L K s (.ecall p regs epc env tp) = .ok s') : ∃ a0, s'.proc p = (s.proc p).returned a0 := by
  obtain ⟨s₁, a, s₂, r, henter, hdis, hproc⟩ := ecall_dispatch hnum (by decide) h
  unfold AlarmSys.dispatch at hdis
  rw [if_neg (by decide), if_neg (by decide), if_neg (by decide), if_neg (by decide), if_neg (by decide),
    if_neg (by decide), if_pos rfl] at hdis
  split at hdis
  · cases hdis
  rename_i s₃ hret
  cases hdis
  unfold AlarmSys.sigreturn at hret
  split at hret
  · cases hret
  dsimp only at hret
  split at hret
  · cases hret
  · cases hret
    rw [hproc, setProc_self, enter_proc henter]
    exact ⟨_, rfl⟩

/-! ## §4. The interval. -/

/-- The timer interrupts of `p` in a history, since its last `sigreturn` there. -/
def interrupts (p : Slot) (xs : List AlarmStep) : Nat :=
  xs.foldl (fun t x => if isTimer p x then t + 1 else if isCall p SYS_sigreturn x then 0 else t) 0

theorem interrupts_snoc (p : Slot) (xs : List AlarmStep) (x : AlarmStep) :
    interrupts p (xs ++ [x])
      = if isTimer p x then interrupts p xs + 1 else if isCall p SYS_sigreturn x then 0 else interrupts p xs := by
  unfold interrupts
  rw [List.foldl_append]
  rfl

/-- A live process with the alarm `n`, `h`, and `t` interrupts after it was set or returned from. -/
structure Counting (n : Nat) (h : UInt64) (t : Nat) (y : AlarmProc) : Prop where
  live : y.state = .RUNNABLE
  frame : ∃ a, y.trapframe = some a
  ticks : y.alarm_ticks.toNat = n
  handler : y.alarm_handler = h
  before : t < n → y.alarm_flag = true ∧ y.current_ticks.toNat = t
  after : n ≤ t → y.alarm_flag = false

section Counting

variable {n t : Nat} {h : UInt64} {y y' : AlarmProc}

variable (hc : Counting n h t y)
include hc

theorem Counting.current_succ (ht : t < n) : (y.current_ticks + 1).toNat = t + 1 := by
  have hlt := y.alarm_ticks.toNat_lt
  rw [hc.ticks] at hlt
  have hone : (1 : UInt64).toNat = 1 := rfl
  rw [UInt64.toNat_add, (hc.before ht).2, hone, Nat.mod_eq_of_lt (by omega)]

/-- The alarm falls due at the `n`-th interrupt. -/
theorem Counting.delivers_iff : y.delivers = true ↔ t + 1 = n := by
  unfold AlarmProc.delivers
  by_cases ht : t < n
  · rw [(hc.before ht).1, Bool.true_and, decide_eq_true_eq, UInt64.le_iff_toNat_le, hc.ticks, hc.current_succ ht]
    omega
  · rw [hc.after (by omega), Bool.false_and]
    constructor
    · intro hfalse
      cases hfalse
    · omega

theorem Counting.timer_counted (hdel : y.delivers = false) : Counting n h (t + 1) (counted y) := by
  have hne : t + 1 ≠ n := by
    intro heq
    rw [hc.delivers_iff.mpr heq] at hdel
    cases hdel
  unfold counted
  split
  · rename_i hflag
    refine ⟨hc.live, hc.frame, hc.ticks, hc.handler, fun ht => ?_, fun ht => ?_⟩
    · exact ⟨hflag, hc.current_succ (by omega)⟩
    · rw [hc.after (by omega)] at hflag
      cases hflag
  · rename_i hflag
    refine ⟨hc.live, hc.frame, hc.ticks, hc.handler, fun ht => ?_, fun ht => ?_⟩
    · exact absurd (hc.before (by omega)).1 hflag
    · exact Bool.eq_false_iff.mpr hflag

theorem Counting.timer_delivered (hdel : y.delivers = true) (b : Nat) (tf : Page) :
    Counting n h (t + 1) (y.delivered b tf) := by
  have heq := hc.delivers_iff.mp hdel
  refine ⟨hc.live, hc.frame, hc.ticks, hc.handler, fun ht => ?_, fun _ => rfl⟩
  omega

/-- `sigreturn` starts a new interval. -/
theorem Counting.return (hpos : 1 ≤ n) (a0 : UInt64) : Counting n h 0 (y.returned a0) := by
  have hne : (y.alarm_ticks == 0) = false := by
    apply beq_eq_false_iff_ne.mpr
    intro hzero
    have hticks := hc.ticks
    rw [hzero] at hticks
    have hnat : (0 : UInt64).toNat = 0 := rfl
    omega
  refine ⟨hc.live, hc.frame, hc.ticks, hc.handler, fun _ => ⟨?_, rfl⟩, fun ht => ?_⟩
  · show (!(y.alarm_ticks == 0 && y.alarm_handler == 0)) = true
    rw [hne]
    rfl
  · omega

theorem Counting.congr (hs : SameAlarm y y') : Counting n h t y' := by
  refine ⟨hs.state.trans hc.live, ?_, by rw [hs.ticks, hc.ticks], by rw [hs.handler, hc.handler], fun ht => ?_,
    fun ht => ?_⟩
  · rw [hs.trapframe]
    exact hc.frame
  · rw [hs.flag, hs.current]
    exact hc.before ht
  · rw [hs.flag]
    exact hc.after ht

omit hc

end Counting

variable {xs : List AlarmStep}

/-- **One step** of a history counts as `interrupts` does. -/
theorem Counting.step {n : Nat} {h : UInt64} (hpos : 1 ≤ n)
    (hc : Counting n h (interrupts p xs) (s.proc p)) (hx : undisturbed p x = true)
    (hrun : AlarmSys.step L K s x = .ok s') : Counting n h (interrupts p (xs ++ [x])) (s'.proc p) := by
  rw [interrupts_snoc]
  by_cases htimer : isTimer p x = true
  · rw [if_pos htimer]
    cases x with
    | timer q regs epc tp =>
      obtain rfl : q = p := beq_iff_eq.mp htimer
      rcases timer_slot hrun with ⟨hdel, hp⟩ | ⟨hdel, b, tf, hp⟩
      · rw [hp]
        exact hc.timer_counted hdel
      · rw [hp]
        exact hc.timer_delivered hdel b tf
    | _ => cases htimer
  rw [if_neg htimer]
  by_cases hret : isCall p SYS_sigreturn x = true
  · rw [if_pos hret]
    cases x with
    | ecall q regs epc env tp =>
      obtain ⟨hq, hnum⟩ := Bool.and_eq_true_iff.mp hret
      obtain rfl : q = p := beq_iff_eq.mp hq
      obtain ⟨a0, hp⟩ := sigreturn_slot (beq_iff_eq.mp hnum) hrun
      rw [hp]
      exact hc.return hpos a0
    | _ => cases hret
  · rw [if_neg hret]
    refine hc.congr ((step_touch hrun p).sameAlarm hc.live hx ?_ ?_)
    · exact Bool.eq_false_iff.mpr htimer
    · exact Bool.eq_false_iff.mpr hret

/-- A positive `int` argument as the kernel stores it. -/
theorem toNat_tickArg {v : Int32} {n : Nat} (h : v.toInt = n) : v.toInt64.toUInt64.toNat = n := by
  have hint : v.toInt64.toBitVec.toInt = n := (Int32.toInt_toInt64 v).trans h
  have hnat : (v.toInt64.toBitVec.toNat : Int) = n := by
    rw [BitVec.toInt_eq_toNat_cond] at hint
    split at hint
    · exact hint
    · omega
  exact Int.ofNat.inj hnat

/-- **The interval of an alarm**, for a call of `sigalarm(n, h)` that finds `current_ticks` at zero: whatever happens
after it, short of another `sigalarm` and of the end of the process, a timer interrupt enters the handler exactly if it
is the `n`-th since the call or since the last `sigreturn`. -/
theorem interval {s₀ s₁ : AlarmSys} {regs : Nat → UInt64} {epc tp : UInt64} {env : CallEnv} {n : Nat}
    {xs : List AlarmStep} (hnum : callNum regs = SYS_sigalarm) (hn : (tickArg regs).toInt = n) (hpos : 1 ≤ n)
    (hzero : (s.proc p).current_ticks = 0) (hcall : step L K s (.ecall p regs epc env tp) = .ok s₀)
    (hrun : xs.foldlM (step L K) s₀ = .ok s₁) (hxs : ∀ x ∈ xs, undisturbed p x = true)
    (hmem : (Xv6.kalloc s₁.km).2 ≠ none) (regs' : Nat → UInt64) (epc' tp' : UInt64) :
    ∃ s₂, step L K s₁ (.timer p regs' epc' tp') = .ok s₂ ∧
      if interrupts p xs + 1 = n
      then (s₂.proc p).outstanding = (s₁.proc p).outstanding + 1 ∧ s₂.resumesAt p (regs A1)
      else (s₂.proc p).outstanding = (s₁.proc p).outstanding ∧ s₂.resumesAt p epc' := by
  obtain ⟨hlive, hframe, hp₀⟩ := sigalarm_ecall hnum hcall
  have hstart : Counting n (regs A1) (interrupts p []) (s₀.proc p) := by
    rw [hp₀]
    refine ⟨hlive, hframe, toNat_tickArg hn, rfl, fun _ => ⟨rfl, ?_⟩, fun ht => ?_⟩
    · show (s.proc p).current_ticks.toNat = 0
      rw [hzero]
      rfl
    · have hnone : interrupts p [] = 0 := rfl
      omega
  have hc : Counting n (regs A1) (interrupts p xs) (s₁.proc p) := by
    refine Lib.foldlM_invariant (I := fun xs s => (∀ x ∈ xs, undisturbed p x = true) →
      Counting n (regs A1) (interrupts p xs) (s.proc p)) (fun _ => hstart) ?_ xs hrun hxs
    intro ys s y s' ih hstep hys
    have hlast : undisturbed p y = true := hys y (List.mem_append_right _ List.mem_cons_self)
    exact (ih fun x hx => hys x (List.mem_append_left _ hx)).step hpos hlast hstep
  obtain ⟨a, htf⟩ := hc.frame
  by_cases hdue : interrupts p xs + 1 = n
  · obtain ⟨s₂, b, tf, hstep, hp, hpc⟩ :=
      timer_delivers regs' epc' tp' hc.live htf (hc.delivers_iff.mpr hdue) hmem
    rw [hc.handler] at hpc
    refine ⟨s₂, hstep, ?_⟩
    rw [if_pos hdue, hp]
    exact ⟨rfl, hpc⟩
  have hdel : (s₁.proc p).delivers = false := Bool.eq_false_iff.mpr fun hdel => hdue (hc.delivers_iff.mp hdel)
  obtain ⟨s₂, hstep, hp, hpc⟩ := timer_counts regs' epc' tp' hc.live htf hdel
  refine ⟨s₂, hstep, ?_⟩
  rw [if_neg hdue, hp, counted]
  refine ⟨?_, hpc⟩
  split
  · rfl
  · rfl

/-- A history, executed. -/
def foldTo (xs : List AlarmStep) (test : AlarmSys → Bool) (s : AlarmSys) : Bool :=
  match xs.foldlM (step Layout.small someAddrs) s with
  | .ok s' => test s'
  | .error _ => false

theorem foldTo_ok {test : AlarmSys → Bool} (h : foldTo xs test s = true) :
    ∃ s', xs.foldlM (step Layout.small someAddrs) s = .ok s' ∧ test s' = true := by
  unfold foldTo at h
  split at h
  · rename_i s' hrun
    exact ⟨s', hrun, h⟩
  · cases h

/-- Two timer interrupts, with a system call between them. -/
def twoTicks : List AlarmStep :=
  [.timer initproc (fun _ => 7) 8 0, .ecall initproc (callRegs 11 0 0) 12 noEnv 0, .timer initproc (fun _ => 7) 16 1]

/-- `init` calls `sigalarm(3, 64)`; the third interrupt, at 24, enters the handler. -/
theorem interval_third : ∃ s₁ s₂, step Layout.small someAddrs s₁ (.timer initproc (fun _ => 9) 24 0) = .ok s₂
      ∧ (s₂.proc initproc).outstanding = (s₁.proc initproc).outstanding + 1 ∧ s₂.resumesAt initproc 64 := by
  obtain ⟨s, -, hend⟩ := reach_of_boot Layout.small someAddrs (fun _ _ => True) [.userinit initproc]
    (fun s => (s.proc initproc).current_ticks == 0 && stepTo (.ecall initproc (callRegs 23 3 64) 0 noEnv 0)
      (foldTo twoTicks fun s => (Xv6.kalloc s.km).2.isSome) s)
    (by decide +kernel)
  obtain ⟨hzero, hsteps⟩ := Bool.and_eq_true_iff.mp hend
  obtain ⟨s₀, hcall, hsteps⟩ := stepTo_ok hsteps
  obtain ⟨s₁, hrun, hmem⟩ := foldTo_ok hsteps
  obtain ⟨s₂, hstep, hres⟩ := interval (n := 3) (by decide) (by decide) (by decide) (beq_iff_eq.mp hzero) hcall hrun
    (by decide) (Option.isSome_iff_ne_none.mp hmem) (fun _ => 9) 24 0
  exact ⟨s₁, s₂, hstep, hres⟩

/-- **The counter of the last setting is kept**: with `sigalarm(5, 64)` and three interrupts behind it, a second
`sigalarm(5, 64)` outside any handler is delivered at the second interrupt after it. -/
theorem early_alarm : ∃ s s₀ s₁ s₂, Lib.Reach (Init Layout.small) (fun _ _ => True) (step Layout.small someAddrs) s
      ∧ (s.proc initproc).outstanding = 0
      ∧ step Layout.small someAddrs s (.ecall initproc (callRegs 23 5 64) 20 noEnv 0) = .ok s₀
      ∧ step Layout.small someAddrs s₀ (.timer initproc (fun _ => 7) 24 0) = .ok s₁
      ∧ step Layout.small someAddrs s₁ (.timer initproc (fun _ => 7) 28 0) = .ok s₂
      ∧ (s₁.proc initproc).outstanding = 0 ∧ (s₂.proc initproc).outstanding = 1 := by
  obtain ⟨s, hs, hend⟩ := reach_of_boot Layout.small someAddrs (fun _ _ => True)
    [.userinit initproc, .ecall initproc (callRegs 23 5 64) 0 noEnv 0, .timer initproc (fun _ => 7) 8 0,
      .timer initproc (fun _ => 7) 12 0, .timer initproc (fun _ => 7) 16 0]
    (fun s => (s.proc initproc).outstanding == 0 && stepTo (.ecall initproc (callRegs 23 5 64) 20 noEnv 0)
      (stepTo (.timer initproc (fun _ => 7) 24 0) fun s => (s.proc initproc).outstanding == 0 &&
        stepTo (.timer initproc (fun _ => 7) 28 0) (fun s => (s.proc initproc).outstanding == 1) s) s)
    (by decide +kernel)
  obtain ⟨hzero, hsteps⟩ := Bool.and_eq_true_iff.mp hend
  obtain ⟨s₀, hcall, hsteps⟩ := stepTo_ok hsteps
  obtain ⟨s₁, hfirst, hsteps⟩ := stepTo_ok hsteps
  obtain ⟨hnone, hsteps⟩ := Bool.and_eq_true_iff.mp hsteps
  obtain ⟨s₂, hsecond, hone⟩ := stepTo_ok hsteps
  exact ⟨s, s₀, s₁, s₂, hs, beq_iff_eq.mp hzero, hcall, hfirst, hsecond, beq_iff_eq.mp hnone, beq_iff_eq.mp hone⟩

/-! ## §5. Switching alarms off. -/

/-- A call `sigalarm(0, 0)` of `p`. -/
def switchesOff (p : Slot) : AlarmStep → Bool
  | .ecall q regs _ _ _ => q == p && callNum regs == SYS_sigalarm && tickArg regs == 0 && regs A1 == 0
  | _ => false

/-- Whether the alarm is off after a step: `sigreturn` switches it off, `sigalarm(0, 0)` on. -/
def offAfter (p : Slot) (off : Bool) (x : AlarmStep) : Bool :=
  isCall p SYS_sigreturn x || (!switchesOff p x && off)

/-- In this history `p` does not exit, sets no other alarm than `0`, `0`, and takes a timer interrupt only when a
`sigreturn` has come since the last `sigalarm`. -/
def staysOff (p : Slot) : Bool → List AlarmStep → Bool
  | _, [] => true
  | off, x :: xs => (undisturbed p x || switchesOff p x) && (!isTimer p x || off) && staysOff p (offAfter p off x) xs

theorem staysOff_snoc (xs : List AlarmStep) (x : AlarmStep) : ∀ off, staysOff p off (xs ++ [x]) = true →
    staysOff p off xs = true ∧ (isTimer p x = true → xs.foldl (offAfter p) off = true) := by
  induction xs with
  | nil =>
    intro off h
    refine ⟨rfl, fun htimer => ?_⟩
    simp only [List.nil_append, staysOff, htimer, Bool.not_true, Bool.false_or, Bool.and_eq_true] at h
    exact h.1.2
  | cons y ys ih =>
    intro off h
    rw [List.cons_append, staysOff, Bool.and_eq_true] at h
    obtain ⟨hys, hlast⟩ := ih _ h.2
    exact ⟨by rw [staysOff, h.1, hys]; rfl, hlast⟩

/-- A live process with the alarm `0`, `0`; `off` once it has returned from its handler. -/
structure Idle (off : Bool) (y : AlarmProc) : Prop where
  live : y.state = .RUNNABLE
  frame : ∃ a, y.trapframe = some a
  ticks : y.alarm_ticks = 0
  handler : y.alarm_handler = 0
  flag : off = true → y.alarm_flag = false

/-- **One step** of such a history. -/
theorem Idle.step {off : Bool} (hi : Idle off (s.proc p)) (hx : (undisturbed p x || switchesOff p x) = true)
    (htimer : isTimer p x = true → off = true) (hrun : AlarmSys.step L K s x = .ok s') :
    Idle (offAfter p off x) (s'.proc p) := by
  by_cases hoff : switchesOff p x = true
  · -- the alarm is set again
    cases x with
    | ecall q regs epc env tp =>
      simp only [switchesOff, Bool.and_eq_true, beq_iff_eq] at hoff
      obtain ⟨⟨⟨rfl, hnum⟩, hn⟩, hh⟩ := hoff
      obtain ⟨hlive, hframe, hp⟩ := sigalarm_ecall hnum hrun
      rw [hp, hn, hh]
      refine ⟨hlive, hframe, rfl, rfl, fun hc => ?_⟩
      simp [offAfter, switchesOff, isCall, hnum, hn, hh, SYS_sigalarm, SYS_sigreturn] at hc
    | _ => cases hoff
  have hnoff := Bool.eq_false_iff.mpr hoff
  rw [hnoff, Bool.or_false] at hx
  by_cases hcall : isCall p SYS_sigreturn x = true
  · cases x with
    | ecall q regs epc env tp =>
      obtain ⟨hq, hnum⟩ := Bool.and_eq_true_iff.mp hcall
      obtain rfl : q = p := beq_iff_eq.mp hq
      obtain ⟨a0, hp⟩ := sigreturn_slot (beq_iff_eq.mp hnum) hrun
      rw [hp]
      refine ⟨hi.live, hi.frame, hi.ticks, hi.handler, fun _ => ?_⟩
      show (!((s.proc q).alarm_ticks == 0 && (s.proc q).alarm_handler == 0)) = false
      rw [hi.ticks, hi.handler]
      rfl
    | _ => cases hcall
  have hsame : offAfter p off x = off := by rw [offAfter, Bool.eq_false_iff.mpr hcall, hnoff]; rfl
  rw [hsame]
  by_cases htick : isTimer p x = true
  · -- a timer interrupt finds the flag clear
    have hflag := hi.flag (htimer htick)
    cases x with
    | timer q regs epc tp =>
      obtain rfl : q = p := beq_iff_eq.mp htick
      rcases timer_slot hrun with ⟨-, hp⟩ | ⟨hdel, -⟩
      · rw [hp, counted, hflag, if_neg Bool.false_ne_true]
        exact ⟨hi.live, hi.frame, hi.ticks, hi.handler, fun _ => hflag⟩
      · rw [AlarmProc.delivers, hflag] at hdel
        cases hdel
    | _ => cases htick
  have hkept := (step_touch hrun p).sameAlarm hi.live hx (Bool.eq_false_iff.mpr htick) (Bool.eq_false_iff.mpr hcall)
  refine ⟨hkept.state.trans hi.live, ?_, hkept.ticks.trans hi.ticks, hkept.handler.trans hi.handler, fun hc => ?_⟩
  · rw [hkept.trapframe]
    exact hi.frame
  · rw [hkept.flag]
    exact hi.flag hc

/-- **A whole history.** -/
theorem Idle.run (xs : List AlarmStep) : ∀ {off : Bool} {s s' : AlarmSys}, Idle off (s.proc p) →
    staysOff p off xs = true → xs.foldlM (AlarmSys.step L K) s = .ok s' →
    Idle (xs.foldl (offAfter p) off) (s'.proc p) := by
  induction xs with
  | nil =>
    intro off s s' hi _ hrun
    cases hrun
    exact hi
  | cons x xs ih =>
    intro off s s' hi hok hrun
    rw [staysOff, Bool.and_eq_true, Bool.and_eq_true] at hok
    rw [List.foldlM_cons] at hrun
    obtain ⟨s₁, hx, hrun⟩ := Lib.bind_ok hrun
    refine ih (hi.step hok.1.1 (fun htimer => ?_) hx) hok.2 hrun
    have hoff := hok.1.2
    rw [htimer] at hoff
    exact hoff

/-- **`sigalarm(0, 0)` in a handler that returns in time**: in every history in which `p` sets no other alarm than `0`, `0`
and calls `sigreturn` after each such call before its next timer interrupt, no timer interrupt redirects it. -/
theorem switched_off {s₀ s₁ : AlarmSys} {regs regs' : Nat → UInt64} {epc tp epc' tp' : UInt64} {env : CallEnv}
    {xs : List AlarmStep} (hnum : callNum regs = SYS_sigalarm) (hn : tickArg regs = 0) (hh : regs A1 = 0)
    (hcall : step L K s (.ecall p regs epc env tp) = .ok s₀) (hrun : xs.foldlM (step L K) s₀ = .ok s₁)
    (hoff : staysOff p false (xs ++ [.timer p regs' epc' tp']) = true) :
    ∃ s₂, step L K s₁ (.timer p regs' epc' tp') = .ok s₂ ∧ (s₂.proc p).outstanding = (s₁.proc p).outstanding
      ∧ s₂.resumesAt p epc' := by
  obtain ⟨hlive, hframe, hp₀⟩ := sigalarm_ecall hnum hcall
  have hstart : Idle false (s₀.proc p) := by
    rw [hp₀, hn, hh]
    exact ⟨hlive, hframe, rfl, rfl, fun hoff => (nomatch hoff)⟩
  obtain ⟨hxs, hlast⟩ := staysOff_snoc xs _ false hoff
  have hi := Idle.run xs hstart hxs hrun
  have hflag := hi.flag (hlast (beq_self_eq_true p))
  have hdel : (s₁.proc p).delivers = false := by
    rw [AlarmProc.delivers, hflag]
    rfl
  obtain ⟨a, htf⟩ := hi.frame
  obtain ⟨s₂, hstep, hp, hpc⟩ := timer_counts regs' epc' tp' hi.live htf hdel
  refine ⟨s₂, hstep, ?_, hpc⟩
  rw [hp, counted, hflag, if_neg Bool.false_ne_true]

/-- A handler calls `sigalarm(0, 0)` twice and returns; the next interrupts, at 12 and 16, are none of its own. -/
theorem switched_off_firstAlarm : ∃ s₁ s₂, step Layout.small someAddrs s₁ (.timer initproc (fun _ => 9) 16 0) = .ok s₂
      ∧ (s₂.proc initproc).outstanding = (s₁.proc initproc).outstanding ∧ s₂.resumesAt initproc 16 := by
  obtain ⟨s, -, hsteps⟩ := reach_of_boot Layout.small someAddrs (fun _ _ => True) firstAlarm
    (stepTo (.ecall initproc (callRegs 23 0 0) 64 noEnv 0)
      (foldTo [.ecall initproc (callRegs 23 0 0) 68 noEnv 0, .ecall initproc (callRegs 24 0 0) 72 noEnv 0,
        .timer initproc (fun _ => 7) 12 0] fun _ => true))
    (by decide +kernel)
  obtain ⟨s₀, hcall, hsteps⟩ := stepTo_ok hsteps
  obtain ⟨s₁, hrun, -⟩ := foldTo_ok hsteps
  obtain ⟨s₂, hstep, hres⟩ := switched_off (by decide) (by decide) (by decide) hcall hrun
    (by decide : staysOff initproc false (_ ++ [.timer initproc (fun _ => 9) 16 0]) = true)
  exact ⟨s₁, s₂, hstep, hres⟩

/-- **`sigalarm(0, 0)` elsewhere**: a process that never had an alarm calls it, and the next timer interrupt, at 8, sends
it to address 0. -/
theorem redirected_to_0 : ∃ s s₀ s₁ a, Lib.Reach (Init Layout.small) (fun _ _ => True) (step Layout.small someAddrs) s
      ∧ step Layout.small someAddrs s (.ecall initproc (callRegs 23 0 0) 4 noEnv 0) = .ok s₀
      ∧ step Layout.small someAddrs s₀ (.timer initproc (fun _ => 7) 8 0) = .ok s₁
      ∧ (s₁.proc initproc).outstanding = 1 ∧ (s₁.proc initproc).trapframe = some a ∧ Lib.word (s₁.km.mem a) EPC = 0 := by
  obtain ⟨s, hs, hsteps⟩ := reach_of_boot Layout.small someAddrs (fun _ _ => True) [.userinit initproc]
    (stepTo (.ecall initproc (callRegs 23 0 0) 4 noEnv 0) (stepTo (.timer initproc (fun _ => 7) 8 0) fun s =>
      (s.proc initproc).outstanding == 1 && (s.proc initproc).trapframe.any fun a => Lib.word (s.km.mem a) EPC == 0))
    (by decide +kernel)
  obtain ⟨s₀, hcall, hsteps⟩ := stepTo_ok hsteps
  obtain ⟨s₁, htimer, hend⟩ := stepTo_ok hsteps
  obtain ⟨hone, hpc⟩ := Bool.and_eq_true_iff.mp hend
  cases ha : (s₁.proc initproc).trapframe with
  | none =>
    rw [ha] at hpc
    cases hpc
  | some a =>
    rw [ha, Option.any_some] at hpc
    exact ⟨s, s₀, s₁, a, hs, hcall, htimer, beq_iff_eq.mp hone, ha, beq_iff_eq.mp hpc⟩

end Xv6.AlarmSys
