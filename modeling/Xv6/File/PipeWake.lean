/-
  Xv6.File.PipeWake — who sleeps on a pipe.

  Here a critical section of `pi->lock` is not one step: another CPU may kill
  its owner in the middle of it, and `wakeup` walks the process table with
  `p->lock` of one process at a time.  `sleep` is two steps: with `p->lock`
  taken it gives up `pi->lock`, and only then the process is SLEEPING.  As
  `wakeup` and `kill` need `p->lock`, they wait for the second one.

  `pi->lock` is a monitor: while it is free, no process asleep could use the
  pipe (`Blocked`); while it is held, its holder is at a point from which it
  will restore this (`Guard`), unless it is `pipewrite` and leaves because it
  was killed after it put a byte.

  Main results:
    * `PipeWake.no_stranded_sleeper` — runs without such a kill,
    * `PipeWake.killed_writer_strands_reader` — a run with one.
-/
import Xv6.File.Pipe

namespace Xv6

/-! ## §1. Processes. -/

/-- `p->state`, as far as `sleep` and `wakeup` see it -/
inductive SleepState where
  | awake
  | sleeping (c : Chan)
  deriving DecidableEq

/-- Where a process is. -/
inductive WakePc where
  | idle
  /-- `acquire(&pi->lock)`, at the start of a call or at the end of `sleep` -/
  | enter (call : PipeCall)
  /-- with `pi->lock`, at the top of the `while` of the call; a byte was put since the lock was taken -/
  | loop (call : PipeCall) (put : Bool)
  /-- with `pi->lock`, in the copying loop of `piperead` -/
  | copy (addr : Nat) (n : Int) (i : Nat)
  /-- `acquire(&pi->lock)` in `pipeclose` -/
  | closing (writable : Bool)
  /-- with `pi->lock`, in `wakeup(c)` before slot `k`; then the call sleeps or returns -/
  | waking (c : Chan) (k : Nat) (after : Option PipeCall)
  /-- in `sleep(c)`, with its own `p->lock`, not SLEEPING yet -/
  | falling (c : Chan) (call : PipeCall)
  /-- in `sleep(c)`, in `sched` -/
  | asleep (c : Chan) (call : PipeCall)

/-- Has `pi->lock`. -/
def WakePc.holds : WakePc → Bool
  | .loop _ _ => true
  | .copy _ _ _ => true
  | .waking _ _ _ => true
  | _ => false

/-- Has its own `p->lock` between two steps. -/
def WakePc.isFalling : WakePc → Bool
  | .falling _ _ => true
  | _ => false

/-- A process that uses the pipe. -/
structure WakeProc where
  pc : WakePc
  state : SleepState
  killed : Bool

/-- The pipe, its lock and the processes. -/
structure PipeWake where
  pi : Pipe
  lock : Option (Fin NPROC)
  proc : Fin NPROC → WakeProc
  /-- both ends are closed and the page is freed -/
  freed : Bool

/-- The steps, between which others may run. -/
inductive WakeStep where
  | pipewrite (p : Fin NPROC) (addr : Nat) (n : Int)
  | piperead (p : Fin NPROC) (addr : Nat) (n : Int)
  | pipeclose (p : Fin NPROC) (writable : Bool)
  | acquire (p : Fin NPROC)
  /-- the next step of the holder; `copyin` or `copyout` may fail -/
  | run (p : Fin NPROC) (copyin : Option UInt8) (copyout : Bool)
  /-- one turn of `wakeup`, or its end -/
  | wake (p : Fin NPROC)
  /-- `p->state = SLEEPING; sched()` -/
  | fall (p : Fin NPROC)
  /-- `sleep` goes on after `sched` -/
  | resume (p : Fin NPROC)
  | kill (p : Fin NPROC)
  /-- the process exits, and its slot is used again -/
  | exit (p : Fin NPROC)

namespace PipeWake

/-- The state of a process changes. -/
def setProc (s : PipeWake) (p : Fin NPROC) (x : WakeProc) : PipeWake :=
  { s with proc := Function.update s.proc p x }

/-- A process comes to another place. -/
def goto (s : PipeWake) (p : Fin NPROC) (pc : WakePc) : PipeWake := s.setProc p { s.proc p with pc := pc }

/-- `release(&pi->lock)` -/
def release (s : PipeWake) : PipeWake := { s with lock := none }

/-- One turn of the `while` of `pipewrite` -/
def writeTurn (s : PipeWake) (p : Fin NPROC) (addr : Nat) (n : Int) (i : Nat)
    (copyin : Option UInt8) : PipeWake :=
  if (i : Int) < n then
    if s.pi.readopen = false ∨ (s.proc p).killed = true then s.release.goto p .idle
    else if s.pi.nwrite = s.pi.nread + PIPESIZE then s.goto p (.waking .nread 0 (some (.write addr n i)))
    else
      match copyin with
      | none => s.goto p (.waking .nread 0 none)
      | some ch => { s with pi := s.pi.put ch }.goto p (.loop (.write addr n (i + 1)) true)
  else s.goto p (.waking .nread 0 none)

/-- One turn of the `while` of `piperead` -/
def readTurn (s : PipeWake) (p : Fin NPROC) (addr : Nat) (n : Int) : PipeWake :=
  if s.pi.nread = s.pi.nwrite ∧ s.pi.writeopen = true then
    if (s.proc p).killed then s.release.goto p .idle else s.release.goto p (.falling .nread (.read addr n))
  else s.goto p (.copy addr n 0)

/-- One turn of the `for` of `piperead` -/
def copyTurn (s : PipeWake) (p : Fin NPROC) (addr : Nat) (n : Int) (i : Nat) (copyout : Bool) : PipeWake :=
  if (i : Int) < n ∧ s.pi.nread ≠ s.pi.nwrite then
    let s' : PipeWake := { s with pi := s.pi.get.1 }
    if copyout then s'.goto p (.copy addr n (i + 1)) else s'.goto p (.waking .nwrite 0 none)
  else s.goto p (.waking .nwrite 0 none)

/-- The turn of `wakeup(c)` for process `q` -/
def wakeOne (s : PipeWake) (c : Chan) (q : Fin NPROC) : PipeWake :=
  if (s.proc q).state = .sleeping c then s.setProc q { s.proc q with state := .awake } else s

/-- What a step does. -/
def step (s : PipeWake) : WakeStep → Except Unit PipeWake
  | .pipewrite p addr n =>
    match (s.proc p).pc with
    | .idle => .ok (s.goto p (.enter (.write addr n 0)))
    | _ => .error ()
  | .piperead p addr n =>
    match (s.proc p).pc with
    | .idle => .ok (s.goto p (.enter (.read addr n)))
    | _ => .error ()
  | .pipeclose p w =>
    match (s.proc p).pc with
    | .idle => .ok (s.goto p (.closing w))
    | _ => .error ()
  | .acquire p =>
    if s.lock = none ∧ s.freed = false then
      match (s.proc p).pc with
      | .enter call => .ok ({ s with lock := some p }.goto p (.loop call false))
      | .closing w =>
        .ok ({ s with lock := some p, pi := Xv6.pipeclose s.pi w }.goto p
          (.waking (if w then .nread else .nwrite) 0 none))
      | _ => .error ()
    else .error ()
  | .run p copyin copyout =>
    match (s.proc p).pc with
    | .loop (.write addr n i) _ => .ok (s.writeTurn p addr n i copyin)
    | .loop (.read addr n) _ => .ok (s.readTurn p addr n)
    | .copy addr n i => .ok (s.copyTurn p addr n i copyout)
    | _ => .error ()
  | .wake p =>
    match (s.proc p).pc with
    | .waking c k after =>
      if h : k < NPROC then
        if (⟨k, h⟩ : Fin NPROC) = p then .ok (s.goto p (.waking c (k + 1) after))
        else if (s.proc ⟨k, h⟩).pc.isFalling then .error ()
        else .ok ((s.wakeOne c ⟨k, h⟩).goto p (.waking c (k + 1) after))
      else
        match after with
        | some call => .ok (s.release.goto p (.falling .nwrite call))
        | none =>
          .ok ({ s.release with freed := !s.pi.readopen && !s.pi.writeopen }.goto p .idle)
    | _ => .error ()
  | .fall p =>
    match (s.proc p).pc with
    | .falling c call => .ok (s.setProc p { s.proc p with pc := .asleep c call, state := .sleeping c })
    | _ => .error ()
  | .resume p =>
    match (s.proc p).pc, (s.proc p).state with
    | .asleep _ call, .awake => .ok (s.goto p (.enter call))
    | _, _ => .error ()
  | .kill p =>
    if (s.proc p).pc.isFalling then .error ()
    else .ok (s.setProc p { s.proc p with killed := true, state := .awake })
  | .exit p =>
    match (s.proc p).pc with
    | .idle => .ok (s.setProc p { s.proc p with killed := false })
    | _ => .error ()

/-- A new pipe that nobody uses. -/
def Init (s : PipeWake) : Prop :=
  (∃ page, s.pi = Pipe.alloc page) ∧ s.lock = none ∧ s.freed = false
    ∧ ∀ p, (s.proc p).pc = .idle ∧ (s.proc p).state = .awake

/-- No `pipewrite` that has put a byte since it took the lock finds in its next test that it was killed. -/
def unkilled (s : PipeWake) : WakeStep → Bool
  | .run p _ _ =>
    match (s.proc p).pc with
    | .loop (.write _ n i) true => !decide ((i : Int) < n) || !(s.proc p).killed
    | _ => true
  | _ => true

/-- The states of the runs in which a kill comes at no such time. -/
def Reachable : PipeWake → Prop := Lib.Reach Init (fun s c => s.unkilled c = true) step

/-- A process woken up from the channel could go on: there are bytes to read or no writers, there is room to write or no
readers. -/
def Usable (pi : Pipe) : Chan → Prop
  | .nread => pi.nread ≠ pi.nwrite ∨ pi.writeopen = false
  | .nwrite => pi.nwrite ≠ pi.nread + PIPESIZE ∨ pi.readopen = false

/-- **No process sleeps on a pipe that it could use**, whenever `pi->lock` is free. -/
def NoStranded (s : PipeWake) : Prop :=
  s.lock = none → ∀ p c, (s.proc p).state = .sleeping c → ¬ Usable s.pi c

/-! ## §2. The monitor. -/

variable {s s' : PipeWake} {p q : Fin NPROC} {c : Chan}

/-- Asleep on the channel, or sure to be. -/
def AsleepOn (s : PipeWake) (q : Fin NPROC) (c : Chan) : Prop :=
  (s.proc q).state = .sleeping c ∨ ∃ call, (s.proc q).pc = .falling c call

/-- Those asleep on the channel could not use the pipe. -/
def Blocked (s : PipeWake) (c : Chan) : Prop := ∀ q, s.AsleepOn q c → ¬ Usable s.pi c

/-- Nobody is asleep on the channel. -/
def Nobody (s : PipeWake) (c : Chan) : Prop := ∀ q, ¬ s.AsleepOn q c

/-- What the holder of `pi->lock` has established at each point. -/
def Guard (s : PipeWake) : WakePc → Prop
  | .loop (.write _ _ _) true => s.Nobody .nwrite ∧ s.pi.readopen = true
  | .loop _ _ => s.Blocked .nread ∧ s.Blocked .nwrite
  | .copy _ _ _ => s.Nobody .nread
  | .waking c k after =>
    (∀ q, s.AsleepOn q c → k ≤ q.val) ∧ (∀ c', c' ≠ c → s.Blocked c')
      ∧ (after.isSome = true → ¬ Usable s.pi .nwrite)
  | _ => True

/-- Nobody sleeps for something that has happened. -/
structure Inv (s : PipeWake) : Prop where
  holder : ∀ p, s.lock = some p ↔ (s.proc p).pc.holds = true
  sleeping : ∀ p c, (s.proc p).state = .sleeping c → ∃ call, (s.proc p).pc = .asleep c call
  blocked : s.lock = none → ∀ c, s.Blocked c
  guard : ∀ p, s.lock = some p → s.Guard (s.proc p).pc

theorem Nobody.blocked (h : s.Nobody c) : s.Blocked c := fun q hq => absurd hq (h q)

/-- Nobody sleeps on a channel on which one could go on. -/
theorem Blocked.nobody (h : s.Blocked c) (hu : Usable s.pi c) : s.Nobody c := fun q hq => h q hq hu

theorem Blocked.mono (h : s.Blocked c) (hpi : s'.pi = s.pi) (hle : ∀ q c, s'.AsleepOn q c → s.AsleepOn q c) :
    s'.Blocked c := fun q hq => hpi ▸ h q (hle q c hq)

variable {pc : WakePc}

/-- With fewer sleepers a guard still holds. -/
theorem Guard.mono (h : s.Guard pc) (hpi : s'.pi = s.pi)
    (hle : ∀ q c, s'.AsleepOn q c → s.AsleepOn q c) : s'.Guard pc := by
  cases pc with
  | loop call put =>
    cases call with
    | write addr n i =>
      cases put with
      | true => exact ⟨fun q hq => h.1 q (hle q _ hq), hpi ▸ h.2⟩
      | false => exact ⟨h.1.mono hpi hle, h.2.mono hpi hle⟩
    | read addr n => exact ⟨Blocked.mono h.1 hpi hle, Blocked.mono h.2 hpi hle⟩
  | copy addr n i => exact fun q hq => h q (hle q _ hq)
  | waking c k after =>
    exact ⟨fun q hq => h.1 q (hle q c hq), fun c' hc => (h.2.1 c' hc).mono hpi hle, fun ha => hpi ▸ h.2.2 ha⟩
  | _ => trivial

/-! ## §3. How steps change who sleeps. -/

theorem proc_setProc (s : PipeWake) (p q : Fin NPROC) (x : WakeProc) :
    (s.setProc p x).proc q = if q = p then x else s.proc q := by
  show Function.update s.proc p x q = _
  by_cases hq : q = p
  · rw [hq, Function.update_self, if_pos rfl]
  · rw [Function.update_of_ne hq, if_neg hq]

/-- A process that is awake, and does not fall asleep, adds no sleeper. -/
theorem asleepOn_setProc {x : WakeProc} (hx : ∀ c, x.state = .sleeping c → s.AsleepOn p c)
    (hfall : ∀ c call, x.pc = .falling c call → s.AsleepOn p c) (hq : (s.setProc p x).AsleepOn q c) : s.AsleepOn q c := by
  unfold AsleepOn at hq
  rw [proc_setProc] at hq
  by_cases hqp : q = p
  · rw [if_pos hqp] at hq
    rw [hqp]
    rcases hq with hq | ⟨call, hq⟩
    · exact hx c hq
    · exact hfall c call hq
  · rw [if_neg hqp] at hq
    exact hq

variable (h : s.Inv)
include h

/-- The holder is awake. -/
theorem Inv.awake (hp : ∀ c call, (s.proc p).pc ≠ .asleep c call) : (s.proc p).state = .awake := by
  cases hst : (s.proc p).state with
  | awake => rfl
  | sleeping c =>
    obtain ⟨call, hpc⟩ := h.sleeping p c hst
    exact absurd hpc (hp c call)

/-- A process without `pi->lock` does something, or a flag of any process changes. -/
theorem Inv.aside {x : WakeProc}
    (hpc : x.pc = (s.proc p).pc ∨ (x.pc.holds = false ∧ (s.proc p).pc.holds = false))
    (hx : ∀ c, x.state = .sleeping c → s.AsleepOn p c ∧ ∃ call, x.pc = .asleep c call)
    (hfall : ∀ c call, x.pc = .falling c call → s.AsleepOn p c) : (s.setProc p x).Inv := by
  have hle : ∀ q c, (s.setProc p x).AsleepOn q c → s.AsleepOn q c := fun q c =>
    asleepOn_setProc (fun c hc => (hx c hc).1) hfall
  refine ⟨fun q => ?_, fun q c hq => ?_, fun hfree c => (h.blocked hfree c).mono rfl hle, fun q hq => ?_⟩
  · rw [proc_setProc]
    by_cases hqp : q = p
    · rw [if_pos hqp, hqp]
      rcases hpc with hpc | ⟨hnew, hold⟩
      · rw [hpc]
        exact h.holder p
      · rw [hnew, ← hold]
        exact h.holder p
    · rw [if_neg hqp]
      exact h.holder q
  · rw [proc_setProc] at hq ⊢
    by_cases hqp : q = p
    · rw [if_pos hqp] at hq ⊢
      exact (hx c hq).2
    · rw [if_neg hqp] at hq ⊢
      exact h.sleeping q c hq
  · rw [proc_setProc]
    by_cases hqp : q = p
    · rw [if_pos hqp]
      rcases hpc with hpc | ⟨-, hold⟩
      · rw [hpc]
        exact (h.guard p (hqp ▸ hq)).mono rfl hle
      · have hholds := (h.holder p).mp (hqp ▸ hq)
        rw [hold] at hholds
        cases hholds
    · rw [if_neg hqp]
      exact (h.guard q hq).mono rfl hle

omit h

/-- The state after a step of the process `p`, which has `pi->lock` afterwards or has given it up. -/
structure Moved (s s' : PipeWake) (p : Fin NPROC) (pc : WakePc) : Prop where
  proc : s'.proc = Function.update s.proc p { s.proc p with pc := pc }
  awake : (s.proc p).state = .awake

theorem Moved.at (h : Moved s s' p pc) (q : Fin NPROC) :
    s'.proc q = if q = p then { s.proc p with pc := pc } else s.proc q := by
  rw [h.proc]
  by_cases hq : q = p
  · rw [hq, Function.update_self, if_pos rfl]
  · rw [Function.update_of_ne hq, if_neg hq]

/-- The other sleepers, and the process itself if it goes to sleep. -/
theorem Moved.asleepOn (h : Moved s s' p pc) (hq : s'.AsleepOn q c) :
    (q ≠ p ∧ s.AsleepOn q c) ∨ (q = p ∧ ∃ call, pc = .falling c call) := by
  unfold AsleepOn at hq
  rw [h.at] at hq
  by_cases hqp : q = p
  · rw [if_pos hqp] at hq
    rcases hq with hq | hq
    · rw [h.awake] at hq
      cases hq
    · exact .inr ⟨hqp, hq⟩
  · rw [if_neg hqp] at hq
    exact .inl ⟨hqp, hq⟩

theorem Moved.asleepOn_of_holds (h : Moved s s' p pc) (hpc : pc.holds = true) (hq : s'.AsleepOn q c) :
    q ≠ p ∧ s.AsleepOn q c := by
  rcases h.asleepOn hq with hold | ⟨-, call, he⟩
  · exact hold
  · rw [he] at hpc
    cases hpc

theorem Moved.sleeping (h : Moved s s' p pc) (hinv : s.Inv) (hq : (s'.proc q).state = .sleeping c) :
    ∃ call, (s'.proc q).pc = .asleep c call := by
  rw [h.at] at hq ⊢
  by_cases hqp : q = p
  · rw [if_pos hqp] at hq
    rw [h.awake] at hq
    cases hq
  · rw [if_neg hqp] at hq ⊢
    exact hinv.sleeping q c hq

include h

/-- **A step to a point with the lock**: the guard of that point has to be shown. -/
theorem Inv.hold (hlock : s.lock = some p ∨ s.lock = none) (hmoved : Moved s s' p pc)
    (hlock' : s'.lock = some p) (hpc : pc.holds = true) (hguard : s'.Guard pc) : s'.Inv := by
  refine ⟨fun q => ?_, fun q c => hmoved.sleeping h, fun hfree => ?_, fun q hq => ?_⟩
  · rw [hlock', hmoved.at]
    by_cases hqp : q = p
    · rw [if_pos hqp, hqp]
      exact ⟨fun _ => hpc, fun _ => rfl⟩
    rw [if_neg hqp]
    refine ⟨fun he => absurd (Option.some.inj he).symm hqp, fun hh => ?_⟩
    have := (h.holder q).mpr hh
    rcases hlock with hl | hl
    · rw [hl] at this
      exact absurd (Option.some.inj this).symm hqp
    · rw [hl] at this
      cases this
  · rw [hlock'] at hfree
    cases hfree
  · rw [hlock'] at hq
    cases hq
    rw [hmoved.at, if_pos rfl]
    exact hguard

/-- **A step that gives up the lock**: no sleeper may be left that could use the pipe. -/
theorem Inv.leave (hlock : s.lock = some p) (hmoved : Moved s s' p pc)
    (hlock' : s'.lock = none) (hpi : s'.pi = s.pi) (hpc : pc.holds = false) (hblocked : ∀ c, s.Blocked c)
    (hfall : ∀ c call, pc = .falling c call → ¬ Usable s.pi c) : s'.Inv := by
  refine ⟨fun q => ?_, fun q c => hmoved.sleeping h, fun _ c q hq => ?_, fun q hq => ?_⟩
  · rw [hlock', hmoved.at]
    refine ⟨nofun, fun hh => ?_⟩
    by_cases hqp : q = p
    · rw [if_pos hqp] at hh
      rw [show ({ s.proc p with pc := pc } : WakeProc).pc = pc from rfl, hpc] at hh
      cases hh
    · rw [if_neg hqp] at hh
      have := (h.holder q).mpr hh
      rw [hlock] at this
      exact absurd (Option.some.inj this).symm hqp
  · rw [hpi]
    rcases hmoved.asleepOn hq with ⟨-, hold⟩ | ⟨-, call, he⟩
    · exact hblocked c q hold
    · exact hfall c call he
  · rw [hlock'] at hq
    cases hq

/-! ## §4. The turns of the loops. -/

omit h in
theorem moved_goto (hawake : (s.proc p).state = .awake) : Moved s (s.goto p pc) p pc :=
  ⟨rfl, hawake⟩

theorem Inv.lock_of (hpc : (s.proc p).pc = pc) (hh : pc.holds = true) : s.lock = some p ∧ s.Guard pc := by
  have hlock := (h.holder p).mpr (hpc ▸ hh)
  exact ⟨hlock, hpc ▸ h.guard p hlock⟩

/-- The holder goes on to `wakeup(c)`. -/
theorem Inv.toWaking (hlock : s.lock = some p) (hawake : (s.proc p).state = .awake)
    (hother : ∀ c', c' ≠ c → s.Blocked c') (after : Option PipeCall)
    (hafter : after.isSome = true → ¬ Usable s.pi .nwrite) : (s.goto p (.waking c 0 after)).Inv := by
  have hm : Moved s (s.goto p (.waking c 0 after)) p (.waking c 0 after) := moved_goto hawake
  refine h.hold (.inl hlock) hm hlock rfl ⟨fun q _ => Nat.zero_le _, fun c' hc => ?_, hafter⟩
  exact (hother c' hc).mono rfl fun q c hq => (hm.asleepOn_of_holds rfl hq).2

omit h

theorem other_nread {c : Chan} (hc : c ≠ .nread) : c = .nwrite := by
  cases c with
  | nread => exact absurd rfl hc
  | nwrite => rfl

theorem other_nwrite {c : Chan} (hc : c ≠ .nwrite) : c = .nread := by
  cases c with
  | nread => rfl
  | nwrite => exact absurd rfl hc

include h

variable {addr : Nat} {n : Int}

/-- **One turn of `pipewrite`.** -/
theorem Inv.writeTurn {i : Nat} {put : Bool} (copyin : Option UInt8)
    (hpc : (s.proc p).pc = .loop (.write addr n i) put)
    (hcalm : put = true → (i : Int) < n → (s.proc p).killed = false) : (s.writeTurn p addr n i copyin).Inv := by
  obtain ⟨hlock, hguard⟩ := h.lock_of hpc rfl
  have hawake := h.awake (p := p) fun c call => by rw [hpc]; nofun
  have hnwrite : s.Blocked .nwrite := by
    cases put with
    | true => exact hguard.1.blocked
    | false => exact hguard.2
  have hother : ∀ c', c' ≠ Chan.nread → s.Blocked c' := fun c' hc => other_nread hc ▸ hnwrite
  unfold PipeWake.writeTurn
  split
  · rename_i hmore
    split
    · rename_i hexit
      -- without a byte put, nothing has changed since the lock was taken
      refine h.leave hlock ⟨rfl, hawake⟩ rfl rfl rfl (fun c => ?_) nofun
      cases put with
      | true =>
        rcases hexit with hclosed | hkilled
        · rw [hguard.2] at hclosed
          cases hclosed
        · rw [hcalm rfl hmore] at hkilled
          cases hkilled
      | false =>
        cases c with
        | nread => exact hguard.1
        | nwrite => exact hguard.2
    rename_i hstay
    have hopen : s.pi.readopen = true := by
      cases hro : s.pi.readopen with
      | true => rfl
      | false => exact absurd (.inl hro) hstay
    split
    · rename_i hfull
      refine h.toWaking hlock hawake hother _ fun _ hu => ?_
      rcases hu with hu | hu
      · exact hu hfull
      · rw [hopen] at hu
        cases hu
    rename_i hroom
    cases copyin with
    | none => exact h.toWaking hlock hawake hother _ nofun
    | some ch =>
      -- there was room, so nobody waits for it
      have hnobody : s.Nobody .nwrite := hnwrite.nobody (.inl hroom)
      have hm : Moved s ({ s with pi := s.pi.put ch }.goto p (.loop (.write addr n (i + 1)) true)) p
          (.loop (.write addr n (i + 1)) true) := ⟨rfl, hawake⟩
      exact h.hold (.inl hlock) hm hlock rfl
        ⟨fun q hq => hnobody q (hm.asleepOn_of_holds rfl hq).2, hopen⟩
  · exact h.toWaking hlock hawake hother _ nofun

/-- **One turn of the waiting loop of `piperead`.** -/
theorem Inv.readTurn {put : Bool}
    (hpc : (s.proc p).pc = .loop (.read addr n) put) : (s.readTurn p addr n).Inv := by
  obtain ⟨hlock, hguard⟩ := h.lock_of hpc rfl
  have hawake := h.awake (p := p) fun c call => by rw [hpc]; nofun
  have hblocked : ∀ c, s.Blocked c := by
    intro c
    cases c with
    | nread => exact hguard.1
    | nwrite => exact hguard.2
  unfold PipeWake.readTurn
  split
  · rename_i hempty
    split
    · exact h.leave hlock ⟨rfl, hawake⟩ rfl rfl rfl hblocked nofun
    refine h.leave hlock ⟨rfl, hawake⟩ rfl rfl rfl hblocked fun c call he hu => ?_
    obtain ⟨rfl, -⟩ := WakePc.falling.inj he
    rcases hu with hu | hu
    · exact hu hempty.1
    · rw [hempty.2] at hu
      cases hu
  rename_i hgo
  -- the reader does not wait, so nobody does
  have hu : Usable s.pi .nread := by
    by_cases hne : s.pi.nread = s.pi.nwrite
    · refine .inr ?_
      cases hwo : s.pi.writeopen with
      | false => rfl
      | true => exact absurd ⟨hne, hwo⟩ hgo
    · exact .inl hne
  have hnobody := (hblocked .nread).nobody hu
  have hm : Moved s (s.goto p (.copy addr n 0)) p (.copy addr n 0) := moved_goto hawake
  exact h.hold (.inl hlock) hm hlock rfl fun q hq => hnobody q (hm.asleepOn_of_holds rfl hq).2

/-- **One turn of the copying loop of `piperead`.** -/
theorem Inv.copyTurn {i : Nat} (copyout : Bool)
    (hpc : (s.proc p).pc = .copy addr n i) : (s.copyTurn p addr n i copyout).Inv := by
  obtain ⟨hlock, hnobody⟩ := h.lock_of hpc rfl
  have hawake := h.awake (p := p) fun c call => by rw [hpc]; nofun
  unfold PipeWake.copyTurn
  split
  · -- a byte less: nobody waits for bytes, and `wakeup` is still to come
    have hnobody' : ∀ (pc : WakePc) (s' : PipeWake), Moved s s' p pc → pc.holds = true → s'.Nobody .nread :=
      fun pc s' hm hh q hq => hnobody q (hm.asleepOn_of_holds hh hq).2
    split
    · have hm : Moved s ({ s with pi := s.pi.get.1 }.goto p (.copy addr n (i + 1))) p (.copy addr n (i + 1)) :=
        ⟨rfl, hawake⟩
      exact h.hold (.inl hlock) hm hlock rfl (hnobody' _ _ hm rfl)
    · have hm : Moved s ({ s with pi := s.pi.get.1 }.goto p (.waking .nwrite 0 none)) p (.waking .nwrite 0 none) :=
        ⟨rfl, hawake⟩
      exact h.hold (.inl hlock) hm hlock rfl ⟨fun q _ => Nat.zero_le _,
        fun c hc => other_nwrite hc ▸ (hnobody' _ _ hm rfl).blocked, nofun⟩
  · exact h.toWaking hlock hawake (fun c hc => other_nwrite hc ▸ Nobody.blocked hnobody) _ nofun

/-! ## §5. `wakeup`. -/

/-- The turn of `wakeup` for a process whose lock is free leaves it awake or on another channel. -/
theorem Inv.wakeOne (hfall : (s.proc q).pc.isFalling = false) :
    (s.wakeOne c q).Inv ∧ ¬ (s.wakeOne c q).AsleepOn q c ∧ (s.wakeOne c q).lock = s.lock
      ∧ (∀ r, ((s.wakeOne c q).proc r).pc = (s.proc r).pc) := by
  have hnot : ∀ call, (s.proc q).pc ≠ .falling c call := fun call he => by rw [he] at hfall; cases hfall
  unfold PipeWake.wakeOne
  split
  · have hpcs : ∀ r, ((s.setProc q { s.proc q with state := .awake }).proc r).pc = (s.proc r).pc := by
      intro r
      rw [proc_setProc]
      split
      · rename_i hr
        rw [hr]
      · rfl
    refine ⟨h.aside (.inl rfl) nofun fun c call he => .inr ⟨call, he⟩, fun hq => ?_, rfl, hpcs⟩
    rcases hq with hq | ⟨call, hq⟩
    · rw [proc_setProc, if_pos rfl] at hq
      cases hq
    · rw [hpcs] at hq
      exact hnot call hq
  · rename_i hst
    exact ⟨h, fun hq => hq.elim hst fun ⟨call, hc⟩ => hnot call hc, rfl, fun _ => rfl⟩

variable {after : Option PipeCall}

/-- **A turn of `wakeup`.** -/
theorem Inv.wakeNext {k : Nat} (hpc : (s.proc p).pc = .waking c k after)
    (hk : k < NPROC) (hgone : ¬ s.AsleepOn ⟨k, hk⟩ c) : (s.goto p (.waking c (k + 1) after)).Inv := by
  obtain ⟨hlock, hfrom, hother, hafter⟩ := h.lock_of hpc rfl
  have hawake := h.awake (p := p) fun c call => by rw [hpc]; nofun
  have hm : Moved s (s.goto p (.waking c (k + 1) after)) p (.waking c (k + 1) after) := moved_goto hawake
  refine h.hold (.inl hlock) hm hlock rfl ⟨fun q hq => ?_,
    fun c' hc => (hother c' hc).mono rfl fun q c hq => (hm.asleepOn_of_holds rfl hq).2, hafter⟩
  have hold := (hm.asleepOn_of_holds rfl hq).2
  have hle := hfrom q hold
  have hne : q.val ≠ k := by
    intro he
    have : q = ⟨k, hk⟩ := Fin.ext he
    exact hgone (this ▸ hold)
  omega

/-- **The end of `wakeup`**: nobody is left on its channel. -/
theorem Inv.wakeEnd {k : Nat} (hpc : (s.proc p).pc = .waking c k after)
    (hk : ¬ k < NPROC) : s.lock = some p ∧ (∀ c, s.Blocked c) ∧ (after.isSome = true → ¬ Usable s.pi .nwrite) := by
  obtain ⟨hlock, hfrom, hother, hafter⟩ := h.lock_of hpc rfl
  refine ⟨hlock, fun c' => ?_, hafter⟩
  by_cases hc : c' = c
  · intro q hq
    have := hfrom q (hc ▸ hq)
    omega
  · exact hother c' hc

/-! ## §6. Runs. -/

/-- A process takes `pi->lock`. -/
theorem Inv.acquire (hfree : s.lock = none) (hm : Moved s s' p pc)
    (hlock : s'.lock = some p) (hpc : pc.holds = true)
    (hguard : (∀ c, s.Blocked c) → (∀ q c, s'.AsleepOn q c → s.AsleepOn q c) → s'.Guard pc) : s'.Inv :=
  h.hold (.inr hfree) hm hlock hpc
    (hguard (h.blocked hfree) fun _ _ hq => (hm.asleepOn_of_holds hpc hq).2)

/-- A process starts a call. -/
theorem Inv.start (hidle : (s.proc p).pc = .idle) (hholds : pc.holds = false)
    (hfall : ∀ c call, pc ≠ .falling c call) : (s.goto p pc).Inv := by
  have hawake := h.awake (p := p) fun c call => by rw [hidle]; nofun
  exact h.aside (.inr ⟨hholds, by rw [hidle]; rfl⟩) (fun c hc => nomatch hawake.symm.trans hc)
    fun c call he => absurd he (hfall c call)

omit h

theorem Inv.step {x : WakeStep} (h : s.Inv) (hcalm : s.unkilled x = true) (hrun : s.step x = .ok s') : s'.Inv := by
  cases x with
  | pipewrite p addr n | piperead p addr n | pipeclose p w =>
    simp only [PipeWake.step] at hrun
    split at hrun
    · cases hrun
      exact h.start ‹_› rfl nofun
    · cases hrun
  | acquire p =>
    by_cases hfree : s.lock = none ∧ s.freed = false
    · cases hpc : (s.proc p).pc with
      | enter call =>
        simp only [PipeWake.step, hpc, if_pos hfree] at hrun
        cases hrun
        have hawake := h.awake (p := p) fun c call => by rw [hpc]; nofun
        refine h.acquire hfree.1 ⟨rfl, hawake⟩ rfl rfl fun hb hle => ?_
        cases call with
        | write addr n i | read addr n => exact ⟨(hb .nread).mono rfl hle, (hb .nwrite).mono rfl hle⟩
      | closing w =>
        simp only [PipeWake.step, hpc, if_pos hfree] at hrun
        cases hrun
        have hawake := h.awake (p := p) fun c call => by rw [hpc]; nofun
        refine h.acquire hfree.1 ⟨rfl, hawake⟩ rfl rfl fun hb hle => ⟨fun q _ => Nat.zero_le _, fun c hc q hq => ?_, nofun⟩
        -- the end that is closed has nothing to do with the other channel
        have hold := hb c q (hle q c hq)
        cases w with
        | true =>
          have hcw : c = .nwrite := other_nread hc
          subst hcw
          exact hold
        | false =>
          have hcr : c = .nread := other_nwrite hc
          subst hcr
          exact hold
      | _ => simp only [PipeWake.step, hpc, if_pos hfree] at hrun; cases hrun
    · simp only [PipeWake.step, if_neg hfree] at hrun
      cases hrun
  | run p copyin copyout =>
    simp only [PipeWake.step] at hrun
    split at hrun
    · rename_i hpc
      cases hrun
      refine h.writeTurn copyin hpc fun hput hmore => ?_
      rw [hput] at hpc
      simp only [unkilled, hpc, decide_eq_true hmore, Bool.not_true, Bool.false_or, Bool.not_eq_true'] at hcalm
      exact hcalm
    · cases hrun
      exact h.readTurn ‹_›
    · cases hrun
      exact h.copyTurn copyout ‹_›
    · cases hrun
  | wake p =>
    cases hpc : (s.proc p).pc with
    | waking c k after =>
      simp only [PipeWake.step, hpc] at hrun
      have hawake := h.awake (p := p) fun c call => by rw [hpc]; nofun
      split at hrun
      · rename_i hk
        split at hrun
        · rename_i hself
          cases hrun
          refine h.wakeNext hpc hk fun hq => ?_
          rw [hself] at hq
          rcases hq with hq | ⟨call, hq⟩
          · rw [hawake] at hq
            cases hq
          · rw [hpc] at hq
            cases hq
        · split at hrun
          · cases hrun
          · rename_i hfall
            cases hrun
            obtain ⟨hinv, hgone, -, hpcs⟩ := h.wakeOne (q := ⟨k, hk⟩) (c := c) (by simpa using hfall)
            exact hinv.wakeNext ((hpcs p).trans hpc) hk hgone
      · rename_i hk
        obtain ⟨hlock, hblocked, hafter⟩ := h.wakeEnd hpc hk
        cases after with
        | some call =>
          cases hrun
          refine h.leave hlock ⟨rfl, hawake⟩ rfl rfl rfl hblocked fun c call he => ?_
          obtain ⟨rfl, -⟩ := WakePc.falling.inj he
          exact hafter rfl
        | none =>
          cases hrun
          exact h.leave hlock ⟨rfl, hawake⟩ rfl rfl rfl hblocked nofun
    | _ => simp only [PipeWake.step, hpc] at hrun; cases hrun
  | fall p =>
    simp only [PipeWake.step] at hrun
    split at hrun
    · rename_i c call hpc
      cases hrun
      refine h.aside (.inr ⟨rfl, by rw [hpc]; rfl⟩) (fun c' hc => ?_) nofun
      obtain rfl := SleepState.sleeping.inj hc
      exact ⟨.inr ⟨call, hpc⟩, call, rfl⟩
    · cases hrun
  | resume p =>
    simp only [PipeWake.step] at hrun
    split at hrun
    · rename_i hpc hst
      cases hrun
      exact h.aside (.inr ⟨rfl, by rw [hpc]; rfl⟩) (fun c hc => nomatch hst.symm.trans hc) nofun
    · cases hrun
  | kill p =>
    cases hfall : (s.proc p).pc.isFalling with
    | true => simp only [PipeWake.step, hfall, if_true] at hrun; cases hrun
    | false =>
      simp only [PipeWake.step, hfall, Bool.false_eq_true, if_false] at hrun
      cases hrun
      exact h.aside (.inl rfl) nofun fun c call he => .inr ⟨call, he⟩
  | exit p =>
    simp only [PipeWake.step] at hrun
    split at hrun
    · rename_i hpc
      cases hrun
      have hawake := h.awake (p := p) fun c call => by rw [hpc]; nofun
      exact h.aside (.inl rfl) (fun c hc => nomatch hawake.symm.trans hc) fun c call he => nomatch hpc.symm.trans he
    · cases hrun

theorem Init.inv (h : s.Init) : s.Inv := by
  obtain ⟨-, hlock, -, hproc⟩ := h
  refine ⟨fun p => ?_, fun p c hc => ?_, fun _ c q hq => ?_, fun p hp => ?_⟩
  · rw [hlock, (hproc p).1]
    exact ⟨nofun, nofun⟩
  · rw [(hproc p).2] at hc
    cases hc
  · rcases hq with hq | ⟨call, hq⟩
    · rw [(hproc q).2] at hq
      cases hq
    · rw [(hproc q).1] at hq
      cases hq
  · rw [hlock] at hp
    cases hp

/-- **No process is left asleep on a pipe that it could use**, in every interleaving without a kill at the wrong time. -/
theorem no_stranded_sleeper (h : s.Reachable) : s.NoStranded := by
  have hinv : s.Inv := h.invariant (fun s hs => hs.inv) fun s x s' hs hcalm hrun => hs.step hcalm hrun
  exact fun hfree p c hc => hinv.blocked hfree c p (.inl hc)

/-- A new pipe. -/
def fresh : PipeWake := ⟨Pipe.alloc fun _ => 0, none, fun _ => ⟨.idle, .awake, false⟩, false⟩

/-- A process that reads. -/
def reader : Fin NPROC := 0

/-- A process that writes. -/
def writer : Fin NPROC := 1

/-- The reader calls `piperead`, and sleeps, the pipe being empty. -/
def readerSleeps : List WakeStep :=
  [.piperead reader 0 8, .acquire reader, .run reader none true, .fall reader]

theorem fresh_init : Init fresh := ⟨⟨_, rfl⟩, rfl, rfl, fun _ => ⟨rfl, rfl⟩⟩

theorem no_stranded_sleeper_waiting :
    ∃ s : PipeWake, s.Reachable ∧ (s.lock = none ∧ (s.proc reader).state = .sleeping .nread) ∧ s.NoStranded := by
  obtain ⟨s, hs, hend⟩ : ∃ s : PipeWake, s.Reachable
      ∧ decide (s.lock = none ∧ (s.proc reader).state = .sleeping .nread) = true :=
    Lib.Reach.of_reaches readerSleeps _ fresh_init (by decide +kernel)
  exact ⟨s, hs, decide_eq_true_eq.mp hend, no_stranded_sleeper hs⟩

/-- **A writer killed after its first byte** leaves with -1 and without `wakeup`: the reader sleeps on. -/
theorem killed_writer_strands_reader : ∃ s : PipeWake, Lib.Reach Init (fun _ _ => True) step s ∧ ¬ s.NoStranded := by
  obtain ⟨s, hs, hend⟩ : ∃ s : PipeWake, Lib.Reach Init (fun _ _ => True) step s ∧ decide (s.lock = none
      ∧ (s.proc reader).state = .sleeping .nread ∧ s.pi.nread ≠ s.pi.nwrite) = true :=
    Lib.Reach.of_reaches (readerSleeps ++ [.pipewrite writer 0 2, .acquire writer, .run writer (some 65) true,
      .kill writer, .run writer (some 66) true]) _ fresh_init (by decide +kernel)
  obtain ⟨hfree, hsleep, hbytes⟩ := decide_eq_true_eq.mp hend
  exact ⟨s, hs, fun hno => hno hfree reader .nread hsleep (.inl hbytes)⟩

end PipeWake

end Xv6
