/-
  Xv6.Sched.EnterTime — how long a process waits before `queue_switch` moves
  it up (`kernel/proc.c`, `q_enter_time` of `kernel/proc.h`).

  `Hist` is the MLFQ kernel with a record of what happened: the number of
  clock interrupts so far, the one at which each process entered the queue it
  is in, and whether it entered it by a promotion.  The kernel itself takes
  the steps of `Mlfq.step`.

  `allocproc` and `mlfq_scheduler` set `q_enter_time` when they queue a
  process.  In `queue_switch` the assignment is commented out: a process that
  has been moved up keeps its old entry time and is moved up again by the next
  call, in the same tick (`promoted_twice`).
-/
import Xv6.Sched.MlfqEffect

namespace Xv6

namespace Mlfq

/-! ## §1. The record. -/

/-- The step queues `p`, other than by moving it up. -/
def queues (m : Mlfq) (p : Slot) : Step → Bool
  | .fork out => m.findUnused = some p ∧ out ≠ .nomem
  | .dispatch => m.unqueued p
  | .yield p' | .sleep p' _ | .exit p' => p' = p
  | _ => false

/-- `queue_switch` moves `p` up in the step from `m` to `m'`: nothing else in these two steps changes a level. -/
def promotes (m m' : Mlfq) (p : Slot) (a : Step) : Bool :=
  (a = .dispatch ∨ a = .clockintr) ∧ (m'.proc p).curr_q < (m.proc p).curr_q

/-- The scheduler with true time. -/
structure Hist where
  m : Mlfq
  /-- clock interrupts so far; `ticks` is their number modulo 2^32 -/
  now : Nat
  /-- when a process entered the queue it is in -/
  entered : Slot → Nat
  /-- it was moved there by `queue_switch` -/
  moved : Slot → Bool

/-- A step, with its time. -/
def Hist.step (g : Hist) (a : Step) : MlfqResult Hist := do
  let m ← g.m.step a
  let now := if a = .clockintr then g.now + 1 else g.now
  .ok { m := m
        now := now
        entered := fun p => if queues g.m p a ∨ promotes g.m m p a then now else g.entered p
        moved := fun p => if queues g.m p a then false else promotes g.m m p a || g.moved p }

/-- The state at boot. -/
def Hist.boot : Hist := ⟨Mlfq.boot, 0, fun _ => 0, fun _ => false⟩

/-- The states of all runs. -/
abbrev Hist.Reachable (g : Hist) : Prop := Lib.Reach (· = Hist.boot) (fun _ _ => True) Hist.step g

/-! ## §2. What a step writes to `q_enter_time`. -/

variable {m m' : Mlfq} {p : Slot} {a : Step}

/-- The entry time of a live process is the one of its last queueing. -/
def Stamps (m m' : Mlfq) (p : Slot) (queued : Bool) : Prop :=
  (m'.proc p).state ≠ .UNUSED →
    (m'.proc p).q_enter_time = (if queued then m.ticks.toUInt64 else (m.proc p).q_enter_time)
      ∧ (queued = false → (m.proc p).state ≠ .UNUSED)

/-- Another process changes, or this one keeps its entry time. -/
theorem Stamps.keep (htime : (m'.proc p).q_enter_time = (m.proc p).q_enter_time)
    (hlive : (m.proc p).state = .UNUSED → (m'.proc p).state = .UNUSED) : Stamps m m' p false := by
  intro hst
  exact ⟨htime, fun _ hun => hst (hlive hun)⟩

theorem Stamps.setProc {x : MProc} {p' : Slot} (htime : x.q_enter_time = (m.proc p').q_enter_time)
    (hlive : (m.proc p').state = .UNUSED → x.state = .UNUSED) : Stamps m (m.setProc p' x) p false := by
  by_cases hp : p = p'
  · subst hp
    exact .keep (by rw [setProc_proc_same, htime]) fun hun => by rw [setProc_proc_same]; exact hlive hun
  · exact .keep (by rw [setProc_proc_ne _ _ hp]) fun hun => by rw [setProc_proc_ne _ _ hp]; exact hun

/-- A slot that is freed is not live. -/
theorem Stamps.freed (queued : Bool) (hun : (m'.proc p).state = .UNUSED) : Stamps m m' p queued :=
  fun hst => absurd hun hst

theorem giveUp_stamps {p' : Slot} {st : ProcState} {chan : Nat} (h : m.giveUp p' st chan = .ok m') :
    Stamps m m' p (p' = p) := by
  unfold giveUp at h
  split at h
  · obtain ⟨-, hproc⟩ := requeue_effect h
    have hp' := hproc p
    by_cases hp : p = p'
    · subst hp
      rw [if_pos rfl] at hp'
      intro _
      rw [hp']
      exact ⟨(if_pos (decide_eq_true rfl)).symm, fun hne => absurd rfl (of_decide_eq_false hne)⟩
    · rw [if_neg hp, setProc_proc_ne _ _ hp] at hp'
      rw [decide_eq_false (fun heq => hp heq.symm)]
      exact .keep (by rw [hp']) fun hun => by rw [hp']; exact hun
  · cases h

theorem fork_other {out : ForkOut} (h : m.findUnused ≠ some p) : (m.fork out).proc p = m.proc p := by
  unfold fork
  split
  · rfl
  rename_i p' hsome
  have hp : p ≠ p' := by
    rintro rfl
    exact h hsome
  have henter : (m.enterQueue p').proc p = m.proc p := setProc_proc_ne _ _ hp
  cases out with
  | nomem => exact setProc_proc_ne _ _ hp
  | copyfail => exact (setProc_proc_ne _ _ hp).trans henter
  | done => exact henter

theorem fork_stamps (m : Mlfq) (out : ForkOut) (p : Slot) :
    Stamps m (m.fork out) p (m.findUnused = some p ∧ out ≠ .nomem) := by
  by_cases hfound : m.findUnused = some p
  · unfold fork
    rw [hfound]
    cases out with
    | nomem | copyfail => exact .freed _ (by unfold freeproc; rw [setProc_proc_same])
    | done =>
      intro _
      have henter : ((m.enterQueue p).proc p).q_enter_time = m.ticks.toUInt64 := by
        unfold enterQueue push
        rw [setQue_proc, setProc_proc_same]
      rw [decide_eq_true (p := some p = some p ∧ ForkOut.done ≠ .nomem) ⟨rfl, fun hne => nomatch hne⟩]
      exact ⟨henter, fun hne => (nomatch hne)⟩
  · have hother : (m.fork out).proc p = m.proc p := fork_other hfound
    rw [decide_eq_false fun hand => hfound hand.1]
    exact .keep (by rw [hother]) fun hun => by rw [hother]; exact hun

/-- **Every step** stamps the processes that it queues, and no others. -/
theorem step_stamps (h : m.step a = .ok m') (p : Slot) : Stamps m m' p (queues m p a) := by
  cases a with
  | fork out =>
    cases h
    exact fork_stamps m out p
  | ready p' =>
    obtain ⟨hst, rfl⟩ := Lib.guard_ok h
    exact .setProc rfl fun hun => by rw [hst] at hun; cases hun
  | dispatch =>
    obtain ⟨r, hr⟩ := schedule_of_dispatch h
    have heff := schedule_effect hr
    intro hlive
    refine ⟨heff.stamp p, fun _ hun => ?_⟩
    rw [heff.state p] at hlive
    split at hlive
    · rename_i hchosen
      rw [heff.chosen p hchosen] at hun
      cases hun
    · exact hlive hun
  | yield p' | sleep p' chan => exact giveUp_stamps h
  | exit p' =>
    rw [step] at h
    split at h
    · cases h
    · exact giveUp_stamps h
  | wakeup chan =>
    cases h
    rcases wakeup_effect m chan p with hsame | ⟨hsleep, hwoken⟩
    · exact .keep (by rw [hsame]) fun hun => by rw [hsame]; exact hun
    · exact .keep (by rw [hwoken]) fun hun => by rw [hsleep] at hun; cases hun
  | kill p' =>
    rw [step] at h
    split at h
    · rename_i hst
      cases h
      exact .setProc rfl fun hun => by rw [hst] at hun; cases hun
    · cases h
      exact .keep rfl id
  | clockintr =>
    have heff := clockintr_effect h
    refine .keep (heff.stamp p) fun hun => ?_
    rcases heff.state p with hsame | ⟨hsleep, -⟩
    · rw [hsame]
      exact hun
    · rw [hsleep] at hun
      cases hun
  | usertrap p' =>
    obtain ⟨e, -, -, heff⟩ := usertrap_effect h
    exact .keep (heff.stamp p) fun hun => (heff.state p).trans hun
  | kerneltrap p' =>
    obtain ⟨e, -, -, heff⟩ := kerneltrap_effect h
    exact .keep (heff.stamp p) fun hun => (heff.state p).trans hun
  | reap p' =>
    obtain ⟨hst, rfl⟩ := Lib.guard_ok h
    by_cases hp : p = p'
    · subst hp
      exact .freed _ (by unfold freeproc; rw [setProc_proc_same])
    · exact .keep (by unfold freeproc; rw [setProc_proc_ne _ _ hp]) fun hun => by
        unfold freeproc
        rw [setProc_proc_ne _ _ hp]
        exact hun

/-! ## §3. Promotions. -/

/-- **Only aged processes are moved up.** -/
theorem promotes_aged (h : m.step a = .ok m') (hp : promotes m m' p a = true) :
    (m.proc p).state = .RUNNABLE ∧ AGING < m'.ticks.toUInt64 - (m.proc p).q_enter_time := by
  obtain ⟨hstep, hlt⟩ := of_decide_eq_true hp
  rcases hstep with rfl | rfl
  · obtain ⟨r, hr⟩ := schedule_of_dispatch h
    have heff := schedule_effect hr
    rcases heff.level p with hsame | ⟨haged, -⟩
    · rw [hsame] at hlt
      exact absurd hlt (Int.lt_irrefl _)
    · rw [heff.ticks]
      exact of_decide_eq_true haged
  · have heff := clockintr_effect h
    rcases heff.level p with hsame | ⟨haged, -⟩
    · rw [hsame] at hlt
      exact absurd hlt (Int.lt_irrefl _)
    · rw [heff.ticks]
      exact of_decide_eq_true haged

theorem giveUp_ticks {st : ProcState} {chan : Nat} (h : m.giveUp p st chan = .ok m') : m'.ticks = m.ticks := by
  unfold giveUp at h
  split at h
  · exact (requeue_effect h).1
  · cases h

/-- Only a clock interrupt counts. -/
theorem step_ticks (h : m.step a = .ok m') : m'.ticks = if a = .clockintr then m.ticks + 1 else m.ticks := by
  cases a with
  | fork out =>
    cases h
    show (m.fork out).ticks = m.ticks
    unfold fork
    split
    · rfl
    · cases out with
      | nomem | copyfail | done => rfl
  | ready p | reap p =>
    obtain ⟨-, rfl⟩ := Lib.guard_ok h
    rfl
  | dispatch =>
    obtain ⟨r, hr⟩ := schedule_of_dispatch h
    exact (schedule_effect hr).ticks
  | yield p | sleep p chan => exact giveUp_ticks h
  | exit p =>
    rw [step] at h
    split at h
    · cases h
    · exact giveUp_ticks h
  | wakeup chan =>
    cases h
    rfl
  | kill p =>
    rw [step] at h
    split at h
    · cases h
      rfl
    · cases h
      rfl
  | clockintr => exact (clockintr_effect h).ticks
  | usertrap p =>
    obtain ⟨e, -, -, heff⟩ := usertrap_effect h
    exact heff.ticks
  | kerneltrap p =>
    obtain ⟨e, -, -, heff⟩ := kerneltrap_effect h
    exact heff.ticks

/-- Ticks of the same 2^32 are subtracted as numbers. -/
theorem waited_of_aged {now entered : Nat} (hle : entered ≤ now) (hepoch : entered / 2 ^ 32 = now / 2 ^ 32)
    (haged : AGING < (UInt32.ofNat now).toUInt64 - (UInt32.ofNat entered).toUInt64) : entered + 30 < now := by
  have hthirty : AGING.toNat = 30 := rfl
  rw [UInt64.lt_iff_toNat_lt, UInt64.toNat_sub, UInt32.toNat_toUInt64, UInt32.toNat_toUInt64, UInt32.toNat_ofNat',
    UInt32.toNat_ofNat', hthirty] at haged
  omega

/-! ## §4. Runs. -/

namespace Hist

variable {g g' : Hist}

/-- `q_enter_time` is the true time of the last entry. -/
structure Inv (g : Hist) : Prop where
  clock : g.m.ticks = UInt32.ofNat g.now
  past : ∀ p, g.entered p ≤ g.now
  stamp : ∀ p, (g.m.proc p).state ≠ .UNUSED → g.moved p = false →
    (g.m.proc p).q_enter_time = (UInt32.ofNat (g.entered p)).toUInt64

theorem Inv.boot : Inv Hist.boot := by
  have hzero : ∀ p, (Mlfq.boot.proc p).q_enter_time = 0 := by decide +kernel
  exact ⟨rfl, fun _ => le_rfl, fun p _ _ => hzero p⟩

theorem now_le (h : g.step a = .ok g') : g.now ≤ g'.now := by
  obtain ⟨m', -, hok⟩ := Lib.bind_ok h
  cases hok
  split
  · exact Nat.le_succ _
  · exact le_rfl

theorem Inv.step (h : Inv g) (hrun : g.step a = .ok g') : Inv g' := by
  have hnow := now_le hrun
  obtain ⟨m', hm, hok⟩ := Lib.bind_ok hrun
  cases hok
  have hticks := step_ticks hm
  refine ⟨?_, fun p => ?_, fun p hlive hmoved => ?_⟩
  · show m'.ticks = UInt32.ofNat (if a = .clockintr then g.now + 1 else g.now)
    rw [hticks, h.clock]
    split
    · exact (UInt32.ofNat_add _ _).symm
    · rfl
  · dsimp only
    split
    · exact le_rfl
    · exact (h.past p).trans hnow
  obtain ⟨htime, hbefore⟩ := step_stamps hm p hlive
  dsimp only at hmoved hlive ⊢
  rw [htime]
  cases hq : queues g.m p a with
  | true =>
    -- the step stamps the process with the tick that it starts in
    rw [if_pos rfl, if_pos (.inl rfl), h.clock]
    have hne : a ≠ .clockintr := by
      rintro rfl
      cases hq
    rw [if_neg hne]
  | false =>
    -- it has not been moved up either, so the stamp and the record stay
    rw [hq] at hmoved
    simp only [Bool.false_eq_true, if_false, Bool.or_eq_false_iff] at hmoved
    rw [if_neg Bool.false_ne_true, if_neg (by rw [hmoved.1]; exact fun hor => hor.elim Bool.false_ne_true Bool.false_ne_true)]
    exact h.stamp p (hbefore hq) hmoved.2

theorem Reachable.inv (h : g.Reachable) : Inv g :=
  h.invariant (fun _ hs => hs ▸ Inv.boot) fun _ _ _ hinv _ hrun => hinv.step hrun

/-- **A process waits for more than 30 ticks** before it is moved up, if it has not been moved up since it was queued and
`ticks` has not wrapped round; its `q_enter_time` is the tick at which it was queued. -/
theorem promoted_after_waiting (h : g.Reachable) : (∀ p, (g.m.proc p).state ≠ .UNUSED → g.moved p = false →
        (g.m.proc p).q_enter_time = (UInt32.ofNat (g.entered p)).toUInt64)
      ∧ ∀ a g' p, g.step a = .ok g' → promotes g.m g'.m p a = true → g.moved p = false →
        g.entered p / 2 ^ 32 = g'.now / 2 ^ 32 → g.entered p + 30 < g'.now := by
  have hinv := h.inv
  refine ⟨hinv.stamp, fun a g' p hrun hp hmoved hepoch => ?_⟩
  have hinv' := hinv.step hrun
  have hle : g.entered p ≤ g'.now := (hinv.past p).trans (now_le hrun)
  obtain ⟨m', hm, hok⟩ := Lib.bind_ok hrun
  cases hok
  obtain ⟨hst, haged⟩ := promotes_aged hm hp
  rw [hinv'.clock, hinv.stamp p (by rw [hst]; decide) hmoved] at haged
  exact waited_of_aged hle hepoch haged

/-! ## §5. Three processes on level 4. -/

/-- The children 1, 2 and 3 use up their ticks on the levels 0..3.  On level 4, 3 waits while 1 runs for 16 ticks and 2
for `n`. -/
def waitingRun (n : Nat) : List Step :=
  [.dispatch, .fork .done, .ready 1, .fork .done, .ready 2, .fork .done, .ready 3, .sleep initproc 7, .dispatch]
  ++ burn 1 1 ++ burn 2 1 ++ burn 3 1
  ++ burn 1 2 ++ burn 2 2 ++ burn 3 2
  ++ burn 1 4 ++ burn 2 4 ++ burn 3 4
  ++ burn 1 8 ++ burn 2 8 ++ burn 3 8
  ++ burn 1 16 ++ (List.replicate n [Step.clockintr, .usertrap 2]).flatten

/-- The step `a` moves `p` up, and `test` holds of the states before and after it. -/
def movesUp (p : Slot) (a : Step) (test : Hist → Hist → Bool) (g : Hist) : Bool :=
  match g.step a with
  | .ok g' => promotes g.m g'.m p a && test g g'
  | .error _ => false

theorem movesUp_spec {test : Hist → Hist → Bool} (h : movesUp p a test g = true) :
    ∃ g', g.step a = .ok g' ∧ promotes g.m g'.m p a = true ∧ test g g' = true := by
  unfold movesUp at h
  split at h
  · rename_i g' hstep
    rw [Bool.and_eq_true] at h
    exact ⟨g', hstep, h.1, h.2⟩
  · cases h

/-- The tick after 14 more moves process 3 up. -/
theorem promoted_after_waiting_burn : ∃ g g', Reachable g ∧ g.step .clockintr = .ok g'
    ∧ promotes g.m g'.m 3 .clockintr = true ∧ g.entered 3 + 30 < g'.now := by
  have hreach : ∃ g, Reachable g ∧ movesUp 3 .clockintr
      (fun g g' => !g.moved 3 && decide (g.entered 3 / 2 ^ 32 = g'.now / 2 ^ 32)) g = true :=
    Lib.Reach.of_reaches (waitingRun 14) _ rfl (by decide +kernel)
  obtain ⟨g, hg, htest⟩ := hreach
  obtain ⟨g', hstep, hp, htest⟩ := movesUp_spec htest
  rw [Bool.and_eq_true, Bool.not_eq_true', decide_eq_true_eq] at htest
  exact ⟨g, g', hg, hstep, hp, (promoted_after_waiting hg).2 _ g' 3 hstep hp htest.1 htest.2⟩

/-- **Two promotions in one tick**: by the clock interrupt, and, when process 2 has yielded, by the round after it. -/
theorem promoted_twice : ∃ g g' p, Reachable g ∧ g.step .dispatch = .ok g' ∧ g.moved p = true
    ∧ promotes g.m g'.m p .dispatch = true ∧ g'.now = g.entered p := by
  have hreach : ∃ g, Reachable g ∧ movesUp 3 .dispatch (fun g g' => g.moved 3 && decide (g'.now = g.entered 3)) g = true :=
    Lib.Reach.of_reaches (waitingRun 15 ++ [.yield 2]) _ rfl (by decide +kernel)
  obtain ⟨g, hg, htest⟩ := hreach
  obtain ⟨g', hstep, hp, htest⟩ := movesUp_spec htest
  rw [Bool.and_eq_true, decide_eq_true_eq] at htest
  exact ⟨g, g', 3, hg, hstep, htest.1, hp, htest.2⟩

end Hist

end Mlfq

end Xv6
