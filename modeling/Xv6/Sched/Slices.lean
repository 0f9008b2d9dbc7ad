/-
  Xv6.Sched.Slices — time slices of the MLFQ scheduler on one CPU
  (`usertrap`, `kerneltrap`, `clockintr` of `kernel/trap.c`,
  `mlfq_scheduler`, `queue_switch`, `update_ticks` of `kernel/proc.c`).

  `Sys` is one CPU: the process that runs, or the place of the scheduler.  A
  timer interrupt may come whenever interrupts are on: in user mode, in a
  system call, and in the scheduler between the locks that it takes.  The
  handler runs with interrupts off, up to each `yield` and on from there when
  the process is dispatched again; a turn of its for loop is one step.

  A process that does not run has `cq_rticks = 0`, and the one that runs has
  been charged less than its slice (`Inv`).  `timer_running` says what a
  timer interrupt makes of the process that it interrupts.
-/
import Xv6.Sched.MlfqEffect
import Xv6.Sched.Round

namespace Xv6.Slices

open Function (update update_self)

/-! ## §1. The system. -/

/-- What a process executes. -/
inductive Mode where
  | user
  /-- in the kernel, on its way back to `usertrap` -/
  | kernel
  /-- in `forkret`, which it was created in -/
  | forkret
  deriving DecidableEq, Repr

/-- One CPU. -/
structure Sys where
  m : Mlfq
  /-- `c->proc` -/
  cur : Option Slot
  place : Mlfq.Place
  mode : Slot → Mode
  /-- the next turn of the for loop of the trap handler that the process is in -/
  handler : Slot → Option Nat
  killed : Slot → Bool
  /-- ghost: the ticks that the process was charged since it was last dispatched -/
  charged : Slot → Nat

namespace Sys

/-- A process gives up the CPU in state `st`, and the scheduler goes on. -/
def giveUp (s : Sys) (p : Slot) (st : ProcState) (chan : Nat) : MlfqResult Sys := do
  let m ← s.m.giveUp p st chan
  .ok { s with m := m, cur := none, place := .first }

/-- `yield()` -/
def yield (s : Sys) (p : Slot) : MlfqResult Sys := s.giveUp p .RUNNABLE (s.m.proc p).chan

/-- `exit(status)`; init must not. -/
def exit (s : Sys) (p : Slot) : MlfqResult Sys :=
  if p = initproc then .error .disabled else s.giveUp p .ZOMBIE (s.m.proc p).chan

/-- The MLFQ part of a trap handler up to its for loop. -/
def trap (s : Sys) (p : Slot) (demote : Mlfq → Slot → MlfqResult Mlfq) : MlfqResult Sys := do
  let e ← s.m.expired p
  let m ← demote s.m p
  let s := { s with m := m, handler := update s.handler p (some 0) }
  if e then s.yield p else .ok s

/-- A timer interrupt. -/
def timer (s : Sys) : MlfqResult Sys :=
  match s.cur with
  | none => do
      let m ← s.m.clockintr
      .ok { s with m := m }
  | some p =>
    -- a handler runs with interrupts off
    if s.handler p ≠ none then .error .disabled
    else do
      let m ← s.m.clockintr
      let s := { s with m := m, charged := update s.charged p (s.charged p + 1) }
      match s.mode p with
      | .user => if s.killed p then s.exit p else s.trap p Mlfq.usertrap
      | _ => s.trap p Mlfq.kerneltrap

/-- A turn of the for loop of the handler, or its end. -/
def loop (s : Sys) : MlfqResult Sys :=
  match s.cur with
  | none => .error .disabled
  | some p =>
    match s.handler p with
    | none => .error .disabled
    | some q =>
      if (q : Int) < (s.m.proc p).curr_q then
        let s := { s with handler := update s.handler p (some (q + 1)) }
        if (s.m.mlfqs q).size > 0 then s.yield p else .ok s
      else .ok { s with handler := update s.handler p none }

/-- The scheduler, up to the next point where interrupts are on. -/
def sched (s : Sys) : MlfqResult Sys :=
  if s.cur ≠ none then .error .disabled
  else do
    let r ← Mlfq.Round.sched ⟨s.m, s.place⟩
    match r.place with
    | .ended none => .ok { s with m := r.m, place := .first }
    | .ended (some p) => .ok { s with m := r.m, cur := some p, charged := update s.charged p 0 }
    | place => .ok { s with m := r.m, place := place }

/-- The process that runs, outside of a trap handler. -/
def active (s : Sys) : Option Slot := s.cur.filter fun p => s.handler p = none

/-- The context of a new process: it starts in `forkret`. -/
def start (s : Sys) (p : Slot) : Sys :=
  { s with mode := update s.mode p .forkret, handler := update s.handler p none,
           killed := update s.killed p false }

end Sys

/-- The steps of the CPU. -/
inductive Step where
  | timer
  /-- a turn of the loop of a trap handler -/
  | loop
  /-- a step of `mlfq_scheduler` -/
  | sched
  /-- a system call, or another trap from user mode -/
  | enter
  /-- `usertrapret` -/
  | usertrapret
  | sleep (chan : Nat)
  | exit
  | fork (out : Mlfq.ForkOut)
  /-- the end of `fork` -/
  | ready (p : Slot)
  | wakeup (chan : Nat)
  | kill (p : Slot)
  /-- `wait` frees the zombie -/
  | reap (p : Slot)
  deriving DecidableEq, Repr

open Sys in
/-- What a step does. -/
def step (s : Sys) : Step → MlfqResult Sys
  | .timer => s.timer
  | .loop => s.loop
  | .sched => s.sched
  | .enter =>
    match s.active with
    | none => .error .disabled
    | some p =>
      if s.mode p ≠ .user then .error .disabled
      else if s.killed p then s.exit p
      else .ok { s with mode := update s.mode p .kernel }
  | .usertrapret =>
    match s.active with
    | none => .error .disabled
    | some p =>
      match s.mode p with
      | .user => .error .disabled
      -- forkret does not look at p->killed
      | .forkret => .ok { s with mode := update s.mode p .user }
      | .kernel =>
        if s.killed p then s.exit p else .ok { s with mode := update s.mode p .user }
  | .sleep chan =>
    match s.active with
    | none => .error .disabled
    | some p => if s.mode p = .user then .error .disabled else s.giveUp p .SLEEPING chan
  | .exit =>
    match s.active with
    | none => .error .disabled
    | some p => if s.mode p = .user then .error .disabled else s.exit p
  | .fork out =>
    match s.m.findUnused with
    | none => .ok s
    | some p => .ok ({ s with m := s.m.fork out }.start p)
  | .ready p => do
      let m ← s.m.step (.ready p)
      .ok { s with m := m }
  | .wakeup chan => .ok { s with m := s.m.wakeup chan }
  | .kill p => do
      let m ← s.m.step (.kill p)
      .ok { s with m := m, killed := update s.killed p true }
  | .reap p => do
      let m ← s.m.step (.reap p)
      .ok { s with m := m, killed := update s.killed p false }

/-- After `userinit`. -/
def boot : Sys := ⟨Mlfq.boot, none, .first, fun _ => .forkret, fun _ => none, fun _ => false, fun _ => 0⟩

/-- The levels are levels. -/
def InRange (s : Sys) : Prop := ∀ p, 0 ≤ (s.m.proc p).curr_q ∧ (s.m.proc p).curr_q ≤ 4

instance (s : Sys) : Decidable (InRange s) := inferInstanceAs (Decidable (∀ _, _))

/-- The states of runs through which the levels stay in range. -/
abbrev Reachable (s : Sys) : Prop := Lib.Reach (· = boot) (fun s _ => InRange s) step s

/-! ## §2. Steps that charge no process. -/

section Effects

variable {m m₁ m' : Mlfq} {p : Slot}

/-- `queue_switch` has moved `p` up: it was RUNNABLE and had waited for more than 30 ticks. -/
def Promoted (m m' : Mlfq) (p : Slot) : Prop :=
  (m.proc p).state = .RUNNABLE ∧ AGING < m'.ticks.toUInt64 - (m.proc p).q_enter_time
    ∧ (m'.proc p).curr_q < (m.proc p).curr_q

/-- As long as it is there, `p` keeps its level, or is moved up by aging. -/
def Levels (m m' : Mlfq) (p : Slot) : Prop :=
  (m.proc p).state ≠ .UNUSED → (m'.proc p).state ≠ .UNUSED → (m'.proc p).curr_q = (m.proc p).curr_q ∨ Promoted m m' p

/-- No process runs, and none has ticks that count. -/
def Idle (m : Mlfq) : Prop := ∀ p, (m.proc p).state ≠ .RUNNING ∧ (m.proc p).cq_rticks = 0

/-- `p` runs, and no other. -/
structure Runs (m : Mlfq) (p : Slot) : Prop where
  running : (m.proc p).state = .RUNNING
  others : ∀ p', p' ≠ p → (m.proc p').state ≠ .RUNNING ∧ (m.proc p').cq_rticks = 0

/-- The process that runs is not touched; the others do not start to run, and count no ticks. -/
structure Quiet (m m' : Mlfq) : Prop where
  proc : ∀ p, m'.proc p = m.proc p ∨ ((m.proc p).state ≠ .RUNNING ∧ (m'.proc p).state ≠ .RUNNING
    ∧ ((m'.proc p).cq_rticks = (m.proc p).cq_rticks ∨ (m'.proc p).cq_rticks = 0))
  level : ∀ p, Levels m m' p

theorem Levels.same (h : (m'.proc p).curr_q = (m.proc p).curr_q) : Levels m m' p := fun _ _ => .inl h

theorem Quiet.refl (m : Mlfq) : Quiet m m := ⟨fun _ => .inl rfl, fun _ => .same rfl⟩

/-- One process changes that does not run. -/
theorem Quiet.one {x : MProc} (hproc : ∀ p', m'.proc p' = if p' = p then x else m.proc p') (hbefore : (m.proc p).state ≠ .RUNNING)
    (hst : x.state ≠ .RUNNING) (hcq : x.cq_rticks = (m.proc p).cq_rticks ∨ x.cq_rticks = 0) (hlevel : Levels m m' p) :
    Quiet m m' := by
  have hself : m'.proc p = x := by rw [hproc p, if_pos rfl]
  have hother : ∀ p', p' ≠ p → m'.proc p' = m.proc p' := fun p' hp => by rw [hproc p', if_neg hp]
  refine ⟨fun p' => ?_, fun p' => ?_⟩
  · by_cases hp : p' = p
    · rw [hp, hself]
      exact .inr ⟨hbefore, hst, hcq⟩
    · exact .inl (hother p' hp)
  · by_cases hp : p' = p
    · rw [hp]
      exact hlevel
    · exact .same (by rw [hother p' hp])

theorem setProc_proc_eq (m : Mlfq) (p : Slot) (x : MProc) (p' : Slot) :
    (m.setProc p x).proc p' = if p' = p then x else m.proc p' := by
  by_cases hp : p' = p
  · rw [if_pos hp, hp, Mlfq.setProc_proc_same]
  · rw [if_neg hp, Mlfq.setProc_proc_ne _ _ hp]

/-- A process that does not run changes its state. -/
theorem Quiet.setState {st : ProcState} (hbefore : (m.proc p).state ≠ .RUNNING) (hst : st ≠ .RUNNING) :
    Quiet m (m.setProc p { m.proc p with state := st }) :=
  .one (setProc_proc_eq m p _) hbefore hst (.inl rfl) (.same (by rw [Mlfq.setProc_proc_same]))

theorem Quiet.freeproc (hbefore : (m.proc p).state ≠ .RUNNING) : Quiet m (m.freeproc p) := by
  refine .one (setProc_proc_eq m p _) hbefore (fun hst => nomatch hst) (.inr rfl) fun _ hlive => ?_
  exact absurd (by unfold Mlfq.freeproc; rw [Mlfq.setProc_proc_same]) hlive

theorem Quiet.fork (m : Mlfq) (out : Mlfq.ForkOut) : Quiet m (m.fork out) := by
  unfold Mlfq.fork
  split
  · exact .refl m
  rename_i p hfound
  have hun := Mlfq.findUnused_some hfound
  have hbefore : (m.proc p).state ≠ .RUNNING := by
    rw [hun]
    exact fun hst => nomatch hst
  cases out with
  | nomem => exact .freeproc hbefore
  | copyfail =>
    have hproc : ∀ p', ((m.enterQueue p).freeproc p).proc p' = if p' = p then ⟨.UNUSED, 0, 0, fun _ => 0, 0, 0, false⟩
        else m.proc p' := by
      intro p'
      unfold Mlfq.freeproc
      rw [setProc_proc_eq]
      split
      · rfl
      · rename_i hp
        exact Mlfq.setProc_proc_ne _ _ hp
    refine .one hproc hbefore (fun hst => nomatch hst) (.inr rfl) fun _ hlive => ?_
    exact absurd (by rw [hproc p, if_pos rfl]) hlive
  | done =>
    exact .one (setProc_proc_eq m p _) hbefore (fun hst => nomatch hst) (.inr rfl) fun hlive => absurd hun hlive

theorem Quiet.wakeup (m : Mlfq) (chan : Nat) : Quiet m (m.wakeup chan) := by
  refine ⟨fun p => ?_, fun p => .same ?_⟩
  · rcases Mlfq.wakeup_effect m chan p with hsame | ⟨hsleep, hwoken⟩
    · exact .inl hsame
    · rw [hwoken, hsleep]
      exact .inr ⟨(nomatch ·), (nomatch ·), .inl rfl⟩
  · rcases Mlfq.wakeup_effect m chan p with hsame | ⟨-, hwoken⟩
    · rw [hsame]
    · rw [hwoken]

/-- The end of `fork`: the child may run. -/
theorem Quiet.ready (h : m.step (.ready p) = .ok m') : Quiet m m' := by
  obtain ⟨hst, rfl⟩ := Lib.guard_ok h
  exact .setState (by rw [hst]; decide) (by decide)

/-- `kill` wakes a process that sleeps. -/
theorem Quiet.kill (h : m.step (.kill p) = .ok m') : Quiet m m' := by
  rw [Mlfq.step] at h
  split at h
  · rename_i hst
    cases h
    exact .setState (by rw [hst]; decide) (by decide)
  · cases h
    exact .refl _

theorem Quiet.reap (h : m.step (.reap p) = .ok m') : Quiet m m' := by
  obtain ⟨hst, rfl⟩ := Lib.guard_ok h
  exact .freeproc (by rw [hst]; decide)

/-- A process that does not run stays as it is, as far as ticks count. -/
theorem Quiet.resting (hq : Quiet m m') (h : (m.proc p).state ≠ .RUNNING ∧ (m.proc p).cq_rticks = 0) :
    (m'.proc p).state ≠ .RUNNING ∧ (m'.proc p).cq_rticks = 0 := by
  rcases hq.proc p with hsame | ⟨-, hst, hcq⟩
  · rw [hsame]
    exact h
  · refine ⟨hst, ?_⟩
    rcases hcq with hcq | hcq
    · rw [hcq, h.2]
    · exact hcq

theorem Idle.quiet (h : Idle m) (hq : Quiet m m') : Idle m' := fun p => hq.resting (h p)

theorem Runs.self_quiet (h : Runs m p) (hq : Quiet m m') : m'.proc p = m.proc p :=
  (hq.proc p).resolve_right fun hand => hand.1 h.running

theorem Runs.quiet (h : Runs m p) (hq : Quiet m m') : Runs m' p :=
  ⟨by rw [h.self_quiet hq, h.running], fun p' hp => hq.resting (h.others p' hp)⟩

/-! ## §3. Clock interrupts and giving up the CPU. -/

theorem levels_ticked (h : Mlfq.Ticked m m') (p : Slot) : Levels m m' p := by
  intro _ _
  rcases h.level p with hsame | ⟨haged, hlt⟩
  · exact .inl hsame
  · obtain ⟨hst, hold⟩ := of_decide_eq_true haged
    exact .inr ⟨hst, by rw [h.ticks]; exact hold, hlt⟩

/-- A process that does not run is not charged, and does not start to run. -/
theorem resting_ticked (ht : Mlfq.Ticked m m') (h : (m.proc p).state ≠ .RUNNING ∧ (m.proc p).cq_rticks = 0) :
    (m'.proc p).state ≠ .RUNNING ∧ (m'.proc p).cq_rticks = 0 := by
  obtain ⟨hidle, hzero⟩ := h
  refine ⟨fun hrun => ?_, ?_⟩
  · rcases ht.state p with hsame | ⟨-, hrunnable⟩
    · rw [hsame] at hrun
      exact hidle hrun
    · rw [hrun] at hrunnable
      cases hrunnable
  · have hcharge := ht.charge p
    rw [if_neg hidle] at hcharge
    rcases hcharge with hsame | hreset
    · rw [hsame, hzero]
    · exact hreset

theorem Idle.ticked (h : Idle m) (ht : Mlfq.Ticked m m') : Idle m' := fun p => resting_ticked ht (h p)

/-- The process that runs is charged a tick, and keeps its level. -/
theorem Runs.ticked (h : Runs m p) (ht : Mlfq.Ticked m m') : Runs m' p
    ∧ (m'.proc p).cq_rticks = (m.proc p).cq_rticks + 1 ∧ (m'.proc p).curr_q = (m.proc p).curr_q := by
  have hrun := h.running
  refine ⟨⟨?_, fun p' hp => resting_ticked ht (h.others p' hp)⟩, ?_, ?_⟩
  · rcases ht.state p with hsame | ⟨hsleep, -⟩
    · rw [hsame, hrun]
    · rw [hrun] at hsleep
      cases hsleep
  · have hcharge := ht.charge p
    rw [if_pos hrun] at hcharge
    exact hcharge
  · rcases ht.level p with hsame | ⟨haged, -⟩
    · exact hsame
    · -- aging moves up processes that are RUNNABLE, and this one runs
      have hst := (of_decide_eq_true haged).1
      rw [show ({ m with ticks := m.ticks + 1 } : Mlfq).proc p = m.proc p from rfl, hrun] at hst
      cases hst

theorem Runs.demoted {e : Bool} (h : Runs m p) (hd : Mlfq.Demoted m m' p e) : Runs m' p := by
  refine ⟨by rw [hd.state p, h.running], fun p' hp => ?_⟩
  rw [hd.other p' hp]
  exact h.others p' hp

/-- **Giving up the CPU** resets the count of ticks and keeps the level. -/
theorem Runs.giveUp {st : ProcState} {chan : Nat} (h : Runs m p) (hrun : m.giveUp p st chan = .ok m') (hst : st ≠ .RUNNING) :
    Idle m' ∧ m'.ticks = m.ticks ∧ (m'.proc p).state = st ∧ ∀ p', (m'.proc p').curr_q = (m.proc p').curr_q
      ∧ (p' ≠ p → m'.proc p' = m.proc p') := by
  unfold Mlfq.giveUp at hrun
  rw [if_pos h.running] at hrun
  obtain ⟨hticks, hproc⟩ := Mlfq.requeue_effect hrun
  have hself : m'.proc p = { m.proc p with state := st, chan := chan }.stamped m.ticks := by
    rw [hproc p, if_pos rfl, Mlfq.setProc_proc_same]
    rfl
  have hother : ∀ p', p' ≠ p → m'.proc p' = m.proc p' := by
    intro p' hp
    rw [hproc p', if_neg hp, Mlfq.setProc_proc_ne _ _ hp]
  refine ⟨fun p' => ?_, hticks, by rw [hself]; rfl, fun p' => ⟨?_, hother p'⟩⟩
  · by_cases hp : p' = p
    · rw [hp, hself]
      exact ⟨hst, rfl⟩
    · rw [hother p' hp]
      exact h.others p' hp
  · by_cases hp : p' = p
    · rw [hp, hself]
      rfl
    · rw [hother p' hp]

end Effects

/-! ## §4. The invariant. -/

section Runs

variable {s s' : Sys} {p : Slot}

/-- The process that runs was charged less than its slice; the others have no ticks that count. -/
def Inv (s : Sys) : Prop :=
  match s.cur with
  | none => Idle s.m
  | some p => Runs s.m p ∧ (s.m.proc p).cq_rticks.toNat = s.charged p ∧ s.charged p < 2 ^ (s.m.proc p).curr_q.toNat

theorem Inv.idle (h : Inv s) (hcur : s.cur = none) : Idle s.m := by
  unfold Inv at h
  rw [hcur] at h
  exact h

theorem Inv.runs (h : Inv s) (hcur : s.cur = some p) : Runs s.m p ∧ (s.m.proc p).cq_rticks.toNat = s.charged p
    ∧ s.charged p < 2 ^ (s.m.proc p).curr_q.toNat := by
  unfold Inv at h
  rw [hcur] at h
  exact h

theorem Inv.of_idle (hcur : s.cur = none) (h : Idle s.m) : Inv s := by
  unfold Inv
  rw [hcur]
  exact h

theorem Inv.of_runs (hcur : s.cur = some p) (h : Runs s.m p) (hcharge : (s.m.proc p).cq_rticks.toNat = s.charged p)
    (hslice : s.charged p < 2 ^ (s.m.proc p).curr_q.toNat) : Inv s := by
  unfold Inv
  rw [hcur]
  exact ⟨h, hcharge, hslice⟩

/-- A step that charges no process. -/
theorem Inv.quiet (h : Inv s) (hq : Quiet s.m s'.m) (hcur : s'.cur = s.cur) (hcharged : s'.charged = s.charged) : Inv s' := by
  cases hc : s.cur with
  | none => exact .of_idle (hcur.trans hc) ((h.idle hc).quiet hq)
  | some p =>
    obtain ⟨hruns, hcharge, hslice⟩ := h.runs hc
    have hself := hruns.self_quiet hq
    refine .of_runs (hcur.trans hc) (hruns.quiet hq) ?_ ?_
    · rw [hself, hcharged]
      exact hcharge
    · rw [hself, hcharged]
      exact hslice

/-- What a step does when a process gives up the CPU without having used up its slice. -/
structure LeftEarly (s s' : Sys) (p : Slot) : Prop where
  cur : s'.cur = none
  idle : Idle s'.m
  ticks : s'.m.ticks = s.m.ticks
  state : (s'.m.proc p).state ≠ .RUNNING
  level : ∀ p', (s'.m.proc p').curr_q = (s.m.proc p').curr_q

theorem giveUp_spec {st : ProcState} {chan : Nat} (h : Runs s.m p) (hst : st ≠ .RUNNING) (hrun : s.giveUp p st chan = .ok s') :
    LeftEarly s s' p ∧ (s'.m.proc p).state = st ∧ ∀ p', p' ≠ p → s'.m.proc p' = s.m.proc p' := by
  obtain ⟨m, hm, hok⟩ := Lib.bind_ok hrun
  cases hok
  obtain ⟨hidle, hticks, hstate, hsame⟩ := h.giveUp hm hst
  exact ⟨⟨rfl, hidle, hticks, by rw [hstate]; exact hst, fun p' => (hsame p').1⟩, hstate, fun p' => (hsame p').2⟩

theorem yield_spec (hrun : s.yield p = .ok s') (h : Runs s.m p) : LeftEarly s s' p :=
  (giveUp_spec h (by decide) hrun).1

theorem exit_spec (h : Runs s.m p) (hrun : s.exit p = .ok s') :
    LeftEarly s s' p ∧ ∀ p', p' ≠ p → s'.m.proc p' = s.m.proc p' := by
  unfold Sys.exit at hrun
  split at hrun
  · cases hrun
  · obtain ⟨hleft, -, hother⟩ := giveUp_spec h (by decide) hrun
    exact ⟨hleft, hother⟩

/-! ## §5. The timer interrupt. -/

/-- What the trap handler makes of the process `p` that it interrupted, up to its for loop. -/
structure Handled (s s' : Sys) (p : Slot) : Prop where
  other : ∀ p', p' ≠ p → s'.m.proc p' = s.m.proc p'
  ticks : s'.m.ticks = s.m.ticks
  /-- the slice is used up -/
  expired : 2 ^ (s.m.proc p).curr_q.toNat ≤ (s.m.proc p).cq_rticks.toNat → s'.cur = none ∧ Idle s'.m
    ∧ (s'.m.proc p).state = .RUNNABLE
    ∧ (s'.m.proc p).curr_q = if (s.m.proc p).curr_q < 4 then (s.m.proc p).curr_q + 1 else (s.m.proc p).curr_q
  /-- it is not -/
  goes_on : (s.m.proc p).cq_rticks.toNat < 2 ^ (s.m.proc p).curr_q.toNat → s'.cur = s.cur ∧ s'.charged = s.charged
    ∧ Runs s'.m p ∧ (s'.m.proc p).cq_rticks = (s.m.proc p).cq_rticks ∧ (s'.m.proc p).curr_q = (s.m.proc p).curr_q

/-- The test of the slice. -/
theorem expired_iff {m : Mlfq} {e : Bool} (h : m.expired p = .ok e) :
    e = true ↔ 2 ^ (m.proc p).curr_q.toNat ≤ (m.proc p).cq_rticks.toNat := by
  unfold Mlfq.expired at h
  split at h
  · cases h
  rename_i q hlevel
  cases h
  unfold Mlfq.level at hlevel
  split at hlevel
  · rw [← Option.some.inj hlevel]
    exact decide_eq_true_iff
  · cases hlevel

/-- **The handlers**: `usertrap` and `kerneltrap` differ in the level at which they reset the count, and `yield` resets it
in any case. -/
theorem trap_spec {demote : Mlfq → Slot → MlfqResult Mlfq} (h : Runs s.m p)
    (hdemote : ∀ m', demote s.m p = .ok m' → ∃ e, s.m.expired p = .ok e ∧ (s.m.proc p).state = .RUNNING ∧ Mlfq.Demoted s.m m' p e)
    (hrun : s.trap p demote = .ok s') : Handled s s' p := by
  obtain ⟨e, he, hrun⟩ := Lib.bind_ok hrun
  obtain ⟨m, hm, hrun⟩ := Lib.bind_ok hrun
  obtain ⟨e', he', -, hd⟩ := hdemote m hm
  obtain rfl := Except.ok.inj (he.symm.trans he')
  have hruns := h.demoted hd
  have hiff := expired_iff he
  cases e with
  | true =>
    have hslice := hiff.mp rfl
    obtain ⟨hleft, hst, hother⟩ := giveUp_spec hruns (by decide) hrun
    refine ⟨fun p' hp => (hother p' hp).trans (hd.other p' hp), hleft.ticks.trans hd.ticks, fun _ => ?_, fun hlt => ?_⟩
    · refine ⟨hleft.cur, hleft.idle, hst, ?_⟩
      rw [hleft.level p]
      refine hd.level.trans (if_congr (and_iff_right rfl) rfl rfl)
    · omega
  | false =>
    have hslice : ¬ 2 ^ (s.m.proc p).curr_q.toNat ≤ (s.m.proc p).cq_rticks.toNat := fun hle => nomatch hiff.mpr hle
    cases hrun
    refine ⟨hd.other, hd.ticks, fun hle => absurd hle hslice, fun _ => ⟨rfl, rfl, hruns, hd.charge rfl, ?_⟩⟩
    exact hd.level.trans (if_neg fun hand => nomatch hand.1)

/-- A process that is interrupted in user mode after it has been killed exits. -/
def Sys.doomed (s : Sys) (p : Slot) : Prop := s.mode p = .user ∧ s.killed p = true

/-- **A timer interrupt of the process that runs.** -/
structure Interrupted (s s' : Sys) (p : Slot) : Prop where
  others : ∀ p', p' ≠ p → Levels s.m s'.m p'
  killed : s.doomed p → s'.cur = none ∧ Idle s'.m ∧ (s'.m.proc p).curr_q = (s.m.proc p).curr_q
  slice_over : ¬ s.doomed p → s.charged p + 1 = 2 ^ (s.m.proc p).curr_q.toNat → s'.cur = none ∧ Idle s'.m
    ∧ (s'.m.proc p).state = .RUNNABLE
    ∧ (s'.m.proc p).curr_q = if (s.m.proc p).curr_q < 4 then (s.m.proc p).curr_q + 1 else (s.m.proc p).curr_q
  goes_on : ¬ s.doomed p → s.charged p + 1 ≠ 2 ^ (s.m.proc p).curr_q.toNat →
    s'.cur = some p ∧ Inv s' ∧ (s'.m.proc p).curr_q = (s.m.proc p).curr_q

theorem levels_after {m m₁ m' : Mlfq} (ht : Mlfq.Ticked m m₁) (hticks : m'.ticks = m₁.ticks) (hsame : m'.proc p = m₁.proc p) :
    Levels m m' p := by
  have hl := levels_ticked ht p
  unfold Levels Promoted at hl ⊢
  rw [hsame, hticks]
  exact hl

/-- The rest of the interrupt, after the tick. -/
theorem Interrupted.of_handled {s₁ : Sys} (hh : Handled s₁ s' p) (ht : Mlfq.Ticked s.m s₁.m) (hcur₁ : s₁.cur = s.cur)
    (hcharged : s₁.charged p = s.charged p + 1) (hinv : Inv s) (hrange : InRange s) (hcur : s.cur = some p)
    (hnot : ¬ s.doomed p) : Interrupted s s' p := by
  obtain ⟨hruns, hcharge, hslice⟩ := hinv.runs hcur
  obtain ⟨hruns₁, hcq, hlevel⟩ := hruns.ticked ht
  have hr := hrange p
  have hsixteen : 2 ^ (s.m.proc p).curr_q.toNat ≤ 2 ^ 4 := Nat.pow_le_pow_right (by decide) (by omega)
  have hcount : (s₁.m.proc p).cq_rticks.toNat = s.charged p + 1 := by
    rw [hcq, UInt64.toNat_add, hcharge, show (1 : UInt64).toNat = 1 from rfl]
    omega
  refine ⟨fun p' hp => levels_after ht hh.ticks (hh.other p' hp), fun hd => absurd hd hnot, fun _ hover => ?_, fun _ hmore => ?_⟩
  · have hexp := hh.expired (by rw [hlevel, hcount]; omega)
    rw [hlevel] at hexp
    exact hexp
  obtain ⟨hc, hch, hr', hcq', hl'⟩ := hh.goes_on (by rw [hlevel, hcount]; omega)
  have hc' : s'.cur = some p := hc.trans (hcur₁.trans hcur)
  refine ⟨hc', .of_runs hc' hr' ?_ ?_, hl'.trans hlevel⟩
  · rw [hcq', hcount, hch, hcharged]
  · rw [hch, hcharged, hl', hlevel]
    omega

theorem timer_running (hinv : Inv s) (hrange : InRange s) (hcur : s.cur = some p) (hrun : s.timer = .ok s') :
    Interrupted s s' p := by
  unfold Sys.timer at hrun
  rw [hcur] at hrun
  dsimp only at hrun
  split at hrun
  · cases hrun
  obtain ⟨m, hm, hrun⟩ := Lib.bind_ok hrun
  have ht := Mlfq.clockintr_effect hm
  have hruns₁ := ((hinv.runs hcur).1.ticked ht).1
  have hcharged : update s.charged p (s.charged p + 1) p = s.charged p + 1 := update_self ..
  split at hrun
  · rename_i hmode
    split at hrun
    · rename_i hkilled
      -- the process exits before its slice is looked at
      obtain ⟨hleft, hother⟩ := exit_spec hruns₁ hrun
      have hd : s.doomed p := ⟨hmode, hkilled⟩
      refine ⟨fun p' hp => levels_after ht hleft.ticks (hother p' hp), fun _ => ⟨hleft.cur, hleft.idle, ?_⟩,
        fun hnot => absurd hd hnot, fun hnot => absurd hd hnot⟩
      rw [hleft.level p]
      exact ((hinv.runs hcur).1.ticked ht).2.2
    · rename_i hkilled
      have hh := trap_spec hruns₁ (fun _ => Mlfq.usertrap_effect) hrun
      exact .of_handled hh ht hcur.symm hcharged hinv hrange hcur fun hd => hkilled hd.2
  · rename_i hmode
    have hh := trap_spec hruns₁ (fun _ => Mlfq.kerneltrap_effect) hrun
    exact .of_handled hh ht hcur.symm hcharged hinv hrange hcur fun hd => hmode hd.1

/-! ## §6. The other steps. -/

/-- A step keeps the invariant and the levels. -/
def Keeps (s s' : Sys) : Prop := Inv s' ∧ ∀ p, Levels s.m s'.m p

theorem keeps_quiet (h : Inv s) (hq : Quiet s.m s'.m) (hcur : s'.cur = s.cur) (hcharged : s'.charged = s.charged) : Keeps s s' :=
  ⟨h.quiet hq hcur hcharged, hq.level⟩

theorem LeftEarly.keeps (h : LeftEarly s s' p) : Keeps s s' :=
  ⟨.of_idle h.cur h.idle, fun p' => .same (h.level p')⟩

theorem active_cur (h : s.active = some p) : s.cur = some p := (Option.filter_eq_some_iff.mp h).1

theorem keeps_loop (h : Inv s) (hrun : s.loop = .ok s') : Keeps s s' := by
  unfold Sys.loop at hrun
  split at hrun
  · cases hrun
  rename_i p hcur
  split at hrun
  · cases hrun
  split at hrun
  · dsimp only at hrun
    split at hrun
    · -- the handler gives way to a process of a better level
      have hleft := yield_spec hrun (h.runs hcur).1
      exact ⟨hleft.keeps.1, hleft.keeps.2⟩
    · cases hrun
      exact keeps_quiet h (.refl _) rfl rfl
  · cases hrun
    exact keeps_quiet h (.refl _) rfl rfl

/-- One step of `queue_switch` promotes an aged process, if any. -/
theorem aging_quiet {a a' : Mlfq.Aging} (h : Idle a.m) (hrun : a.sched = .ok a') : Quiet a.m a'.m := by
  unfold Mlfq.Aging.sched at hrun
  split at hrun
  · split at hrun
    · cases hrun
      exact .refl _
    · cases hrun
      exact .refl _
  · split at hrun
    · cases hrun
    · cases hrun
      exact .refl _
  · rename_i q p _
    split at hrun
    · rename_i haged
      cases hrun
      obtain ⟨hst, hold⟩ := of_decide_eq_true haged
      have hproc := Mlfq.promote_proc a.m q p
      refine .one hproc (h p).1 (h p).1 (.inr rfl) fun _ _ => .inr ⟨hst, hold, ?_⟩
      rw [hproc p, if_pos rfl]
      exact Int.sub_one_lt_iff.mpr le_rfl
    · cases hrun
      exact .refl _
  · cases hrun

theorem enqueue_quiet {m m' : Mlfq} (h : Idle m) (hrun : m.enqueue p = .ok m') : Quiet m m' := by
  obtain ⟨-, hproc⟩ := Mlfq.enqueue_effect hrun
  by_cases hun : m.unqueued p = true
  · have hproc' : ∀ p', m'.proc p' = if p' = p then (m.proc p).stamped m.ticks else m.proc p' := by
      intro p'
      rw [hproc p']
      by_cases hp : p' = p
      · rw [hp, if_pos ⟨rfl, hun⟩, if_pos rfl]
      · rw [if_neg fun hand => hp hand.1, if_neg hp]
    refine .one hproc' (h p).1 (h p).1 (.inr rfl) (.same ?_)
    rw [hproc' p, if_pos rfl]
    rfl
  · have hsame : ∀ p', m'.proc p' = m.proc p' := by
      intro p'
      rw [hproc p', if_neg]
      rintro ⟨rfl, hun'⟩
      exact hun hun'
    exact ⟨fun p' => .inl (hsame p'), fun p' => .same (by rw [hsame p'])⟩

/-- `swtch` to a process, which has no ticks yet. -/
theorem keeps_dispatch (h : Idle s.m) (p : Slot) : Keeps s { s with
    m := (s.m.setProc p { s.m.proc p with qued_fl := false }).setProc p
      { (s.m.setProc p { s.m.proc p with qued_fl := false }).proc p with state := .RUNNING }
    cur := some p
    charged := update s.charged p 0 } := by
  rw [Mlfq.setProc_proc_same, Mlfq.setProc_setProc]
  have hproc := setProc_proc_eq s.m p { s.m.proc p with qued_fl := false, state := .RUNNING }
  have hself : (s.m.setProc p { s.m.proc p with qued_fl := false, state := .RUNNING }).proc p
      = { s.m.proc p with qued_fl := false, state := .RUNNING } := Mlfq.setProc_proc_same ..
  have hzero : update s.charged p 0 p = 0 := update_self ..
  refine ⟨.of_runs rfl ⟨by rw [hself], fun p' hp => ?_⟩ ?_ ?_, fun p' => .same ?_⟩
  · rw [hproc p', if_neg hp]
    exact h p'
  · rw [hself]
    show (s.m.proc p).cq_rticks.toNat = update s.charged p 0 p
    rw [hzero, (h p).2]
    rfl
  · show update s.charged p 0 p < _
    rw [hzero]
    exact Nat.two_pow_pos _
  · show ((s.m.setProc p _).proc p').curr_q = _
    rw [hproc p']
    split
    · rename_i hp
      rw [hp]
    · rfl

/-- One step of the scheduler charges no process, or switches to one. -/
theorem round_quiet {r r' : Mlfq.Round} (h : Idle r.m) (hrun : r.sched = .ok r') :
    (Quiet r.m r'.m ∧ ∀ p, r'.place ≠ .ended (some p)) ∨ ∃ p, r' = ⟨(r.m.unflag p).setProc p
      { (r.m.unflag p).proc p with state := .RUNNING }, .ended (some p)⟩ := by
  unfold Mlfq.Round.sched at hrun
  split at hrun
  · cases hrun
    exact .inl ⟨.refl _, fun _ => nofun⟩
  · obtain ⟨a, ha, hok⟩ := Lib.bind_ok hrun
    cases hok
    exact .inl ⟨aging_quiet h ha, fun _ => nofun⟩
  · cases hrun
    exact .inl ⟨.refl _, fun _ => nofun⟩
  · obtain ⟨m, hm, hok⟩ := Lib.bind_ok hrun
    cases hok
    exact .inl ⟨enqueue_quiet h hm, fun _ => nofun⟩
  · cases hrun
    exact .inl ⟨.refl _, fun _ => nofun⟩
  · split at hrun
    · cases hrun
      exact .inl ⟨.refl _, fun _ => nofun⟩
    · cases hrun
      exact .inl ⟨.refl _, fun _ => nofun⟩
  · split at hrun
    · cases hrun
    · cases hrun
      exact .inl ⟨⟨fun _ => .inl rfl, fun _ => .same rfl⟩, fun _ => nofun⟩
  · rename_i qs p _
    have hclear : Quiet r.m (r.m.unflag p) :=
      .one (setProc_proc_eq _ _ _) (h p).1 (h p).1 (.inl rfl) (.same (by unfold Mlfq.unflag; rw [Mlfq.setProc_proc_same]))
    dsimp only at hrun
    split at hrun
    · cases hrun
      exact .inr ⟨p, rfl⟩
    · cases hrun
      exact .inl ⟨hclear, fun _ => nofun⟩
  · cases hrun

/-- **The scheduler.** -/
theorem keeps_sched (h : Inv s) (hrun : s.sched = .ok s') : Keeps s s' := by
  unfold Sys.sched at hrun
  split at hrun
  · cases hrun
  rename_i hcur
  have hidle := h.idle (not_not.mp hcur)
  obtain ⟨r, hr, hrun⟩ := Lib.bind_ok hrun
  rcases round_quiet hidle hr with ⟨hq, hne⟩ | ⟨p, rfl⟩
  · split at hrun
    · cases hrun
      exact keeps_quiet h hq rfl rfl
    · rename_i p hp
      exact absurd hp (hne p)
    · cases hrun
      exact keeps_quiet h hq rfl rfl
  · cases hrun
    exact keeps_dispatch hidle p

/-- Calls of the kernel that leave the trap handlers and the scheduler alone. -/
def Step.plain : Step → Bool
  | .timer | .loop | .sched => false
  | _ => true

theorem keeps_exit (h : Inv s) (hact : s.active = some p) (hrun : s.exit p = .ok s') : Keeps s s' :=
  (exit_spec (h.runs (active_cur hact)).1 hrun).1.keeps

theorem keeps_plain {a : Step} (h : Inv s) (ha : a.plain = true) (hrun : step s a = .ok s') : Keeps s s' := by
  cases a with
  | timer | loop | sched => cases ha
  | enter =>
    rw [step] at hrun
    split at hrun
    · cases hrun
    rename_i p hact
    split at hrun
    · cases hrun
    · split at hrun
      · exact keeps_exit h hact hrun
      · cases hrun
        exact keeps_quiet h (.refl _) rfl rfl
  | usertrapret =>
    rw [step] at hrun
    split at hrun
    · cases hrun
    rename_i p hact
    split at hrun
    · cases hrun
    · cases hrun
      exact keeps_quiet h (.refl _) rfl rfl
    · split at hrun
      · exact keeps_exit h hact hrun
      · cases hrun
        exact keeps_quiet h (.refl _) rfl rfl
  | sleep chan =>
    rw [step] at hrun
    split at hrun
    · cases hrun
    · rename_i p hact
      split at hrun
      · cases hrun
      · exact (giveUp_spec (h.runs (active_cur hact)).1 (by decide) hrun).1.keeps
  | exit =>
    rw [step] at hrun
    split at hrun
    · cases hrun
    · rename_i p hact
      split at hrun
      · cases hrun
      · exact keeps_exit h hact hrun
  | fork out =>
    rw [step] at hrun
    split at hrun
    · cases hrun
      exact keeps_quiet h (.refl _) rfl rfl
    · cases hrun
      exact keeps_quiet h (.fork s.m out) rfl rfl
  | ready p =>
    obtain ⟨m, hm, hok⟩ := Lib.bind_ok hrun
    cases hok
    exact keeps_quiet h (.ready hm) rfl rfl
  | wakeup chan =>
    cases hrun
    exact keeps_quiet h (.wakeup s.m chan) rfl rfl
  | kill p =>
    obtain ⟨m, hm, hok⟩ := Lib.bind_ok hrun
    cases hok
    exact keeps_quiet h (.kill hm) rfl rfl
  | reap p =>
    obtain ⟨m, hm, hok⟩ := Lib.bind_ok hrun
    cases hok
    exact keeps_quiet h (.reap hm) rfl rfl

theorem keeps_timer_idle (h : Inv s) (hcur : s.cur = none) (hrun : s.timer = .ok s') : Keeps s s' := by
  unfold Sys.timer at hrun
  rw [hcur] at hrun
  obtain ⟨m, hm, hok⟩ := Lib.bind_ok hrun
  cases hok
  have ht := Mlfq.clockintr_effect hm
  exact ⟨.of_idle rfl ((h.idle hcur).ticked ht), levels_ticked ht⟩

/-! ## §7. Runs. -/

/-- The slice of `p` ends in the step `a`. -/
def SliceEnds (s : Sys) (p : Slot) (a : Step) : Prop :=
  a = .timer ∧ s.cur = some p ∧ s.charged p + 1 = 2 ^ (s.m.proc p).curr_q.toNat

theorem Keeps.unless {a : Step} (h : Keeps s s') : Inv s' ∧ ∀ p, ¬ SliceEnds s p a → Levels s.m s'.m p :=
  ⟨h.1, fun p _ => h.2 p⟩

/-- **One step** keeps the invariant, and the levels of all processes but the one whose slice ends. -/
theorem keeps_step {a : Step} (h : Inv s) (hrange : InRange s) (hrun : step s a = .ok s') :
    Inv s' ∧ ∀ p, ¬ SliceEnds s p a → Levels s.m s'.m p := by
  by_cases hplain : a.plain = true
  · exact (keeps_plain h hplain hrun).unless
  cases a with
  | loop => exact (keeps_loop h hrun).unless
  | sched => exact (keeps_sched h hrun).unless
  | timer =>
    cases hcur : s.cur with
    | none => exact (keeps_timer_idle h hcur hrun).unless
    | some p =>
      -- the process that is interrupted exits, gives up the CPU or goes on
      have hint := timer_running h hrange hcur hrun
      have hself : Inv s' ∧ (¬ SliceEnds s p .timer → (s'.m.proc p).curr_q = (s.m.proc p).curr_q) := by
        by_cases hd : s.doomed p
        · obtain ⟨hcur', hidle, hlevel⟩ := hint.killed hd
          exact ⟨.of_idle hcur' hidle, fun _ => hlevel⟩
        · by_cases hover : s.charged p + 1 = 2 ^ (s.m.proc p).curr_q.toNat
          · obtain ⟨hcur', hidle, -⟩ := hint.slice_over hd hover
            exact ⟨.of_idle hcur' hidle, fun hnot => absurd ⟨rfl, hcur, hover⟩ hnot⟩
          · obtain ⟨-, hinv, hlevel⟩ := hint.goes_on hd hover
            exact ⟨hinv, fun _ => hlevel⟩
      refine ⟨hself.1, fun p' hnot => ?_⟩
      by_cases hp : p' = p
      · subst hp
        exact .same (hself.2 hnot)
      · exact hint.others p' hp
  | _ => exact absurd rfl hplain

theorem boot_inv : Inv boot := by
  have hall : ∀ p, (Mlfq.boot.proc p).state ≠ .RUNNING ∧ (Mlfq.boot.proc p).cq_rticks = 0 := by decide +kernel
  exact .of_idle rfl hall

theorem Reachable.inv (h : Reachable s) : Inv s :=
  h.invariant (fun _ hs => hs ▸ boot_inv) fun _ _ _ hinv hrange hrun => (keeps_step hinv hrange hrun).1

/-- **Time slices.**  When a trap handler is done with a timer interrupt, the process has ticks left in its slice.  A process
that has been charged its whole slice goes down a level, or stays on level 4, and gives up the CPU, if it has not been
killed.  Every other step leaves the level of a process, except that aging moves it up. -/
theorem time_slices (h : Reachable s) (hrange : InRange s) :
    (∀ p, s.cur = some p → (s.m.proc p).cq_rticks.toNat = s.charged p)
      ∧ (∀ s' p, step s .loop = .ok s' → s'.cur = some p → s'.handler p = none →
        (s'.m.proc p).cq_rticks.toNat < 2 ^ (s'.m.proc p).curr_q.toNat)
      ∧ (∀ s' p, step s .timer = .ok s' → SliceEnds s p .timer → ¬ s.doomed p → s'.cur = none
        ∧ (s'.m.proc p).state = .RUNNABLE
        ∧ (s'.m.proc p).curr_q = if (s.m.proc p).curr_q < 4 then (s.m.proc p).curr_q + 1 else 4)
      ∧ ∀ a s' p, step s a = .ok s' → ¬ SliceEnds s p a → Levels s.m s'.m p := by
  have hinv := h.inv
  refine ⟨fun p hcur => (hinv.runs hcur).2.1, fun s' p hrun hcur _ => ?_, fun s' p hrun hends hd => ?_,
    fun a s' p hrun => (keeps_step hinv hrange hrun).2 p⟩
  · obtain ⟨-, hcharge, hslice⟩ := (keeps_step hinv hrange hrun).1.runs hcur
    rw [hcharge]
    exact hslice
  obtain ⟨-, hcur, hover⟩ := hends
  obtain ⟨hcur', -, hst, hlevel⟩ := (timer_running hinv hrange hcur hrun).slice_over hd hover
  refine ⟨hcur', hst, hlevel.trans ?_⟩
  have hr := hrange p
  split
  · rfl
  · omega

end Runs

/-! ## §8. The first slices. -/

/-- A round that finds the front of level 0 RUNNABLE. -/
def round : List Step := List.replicate 73 .sched

/-- The step `a` succeeds and `test` holds of the states before and after it. -/
def after (a : Step) (test : Sys → Sys → Bool) (s : Sys) : Bool :=
  match step s a with
  | .ok s' => test s s'
  | .error _ => false

theorem after_spec {s : Sys} {a : Step} {test : Sys → Sys → Bool} (h : after a test s = true) :
    ∃ s', step s a = .ok s' ∧ test s s' = true := by
  unfold after at h
  split at h
  · rename_i s' hstep
    exact ⟨s', hstep, h⟩
  · cases h

/-- The first process is interrupted in its first tick: it goes down to level 1. -/
theorem time_slices_round : ∃ s s', Reachable s ∧ InRange s ∧ step s .timer = .ok s' ∧ SliceEnds s initproc .timer
    ∧ ¬ s.doomed initproc ∧ s'.cur = none ∧ (s'.m.proc initproc).curr_q = 1 := by
  have hreach : ∃ s, Reachable s ∧ after .timer (fun s _ => decide (InRange s ∧ s.cur = some initproc
      ∧ s.charged initproc = 0 ∧ (s.m.proc initproc).curr_q = 0 ∧ s.mode initproc = .forkret)) s = true :=
    Lib.Reach.of_reaches round _ rfl (by decide +kernel)
  obtain ⟨s, hs, htest⟩ := hreach
  obtain ⟨s', hstep, htest⟩ := after_spec htest
  obtain ⟨hrange, hcur, hcharged, hlevel, hmode⟩ := of_decide_eq_true htest
  have hends : SliceEnds s initproc .timer := ⟨rfl, hcur, by rw [hcharged, hlevel]; rfl⟩
  have hd : ¬ s.doomed initproc := by
    rintro ⟨huser, -⟩
    rw [hmode] at huser
    cases huser
  obtain ⟨hcur', -, hlevel'⟩ := (time_slices hs hrange).2.2.1 s' initproc hstep hends hd
  rw [hlevel] at hlevel'
  exact ⟨s, s', hs, hrange, hstep, hends, hd, hcur', hlevel'⟩

/-- **A killed process**: its first tick is its whole slice, but it exits on level 0. -/
theorem killed_keeps_level : ∃ s s' p, Reachable s ∧ InRange s ∧ step s .timer = .ok s' ∧ SliceEnds s p .timer
    ∧ (s.m.proc p).curr_q < 4 ∧ (s'.m.proc p).curr_q ≠ (s.m.proc p).curr_q + 1 := by
  have hreach : ∃ s, Reachable s ∧ after .timer (fun s s' => decide (InRange s ∧ s.cur = some 1 ∧ s.charged 1 = 0
      ∧ (s.m.proc 1).curr_q = 0 ∧ (s'.m.proc 1).curr_q = 0)) s = true :=
    Lib.Reach.of_reaches (round ++ [.usertrapret, .enter, .fork .done, .ready 1, .usertrapret, .enter, .kill 1,
      .usertrapret, .enter, .sleep 7] ++ round ++ [.usertrapret]) _ rfl (by decide +kernel)
  obtain ⟨s, hs, htest⟩ := hreach
  obtain ⟨s', hstep, htest⟩ := after_spec htest
  obtain ⟨hrange, hcur, hcharged, hlevel, hlevel'⟩ := of_decide_eq_true htest
  refine ⟨s, s', 1, hs, hrange, hstep, ⟨rfl, hcur, by rw [hcharged, hlevel]; rfl⟩, ?_, ?_⟩
  · rw [hlevel]
    decide
  · rw [hlevel, hlevel']
    decide

end Xv6.Slices
