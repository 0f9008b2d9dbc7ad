/-
  Xv6.Proc.Wait — no exit notification is lost.

  `wait_lock` is a monitor: while it is free, no process asleep in `wait` has
  a zombie child (`NoLost`); while it is held, its holder is at a point of
  `exit` or `wait` from which it will restore this (`Guard`).  Processes that
  do not hold it can only wake sleepers and remove children (`Quieter`), and
  `Guard` survives that.

  Main result: `no_lost_exit`.
-/
import Xv6.Proc.Lifecycle

namespace Xv6

namespace ProcSys

open Function (update_of_ne update_self)

variable {s s' s₁ : ProcSys} {p q : Slot} {c : Pc}

/-! ## §1. Who holds which lock. -/

/-- Locks are held where the code holds them. -/
structure Discipline (s : ProcSys) : Prop where
  holds : ∀ p, s.wait_lock = some p ↔ (s.pc p).holdsWait = true
  locks : ∀ p q, (s.pc p).holdsLock p = some q → s.lock q = some p
  /-- a process asleep in `wait` sleeps on itself -/
  chan : ∀ p, s.pc p = .waiting → (s.proc p).state = .SLEEPING →
    (s.proc p).chan = some (.proc p)

/-- Process `p` moves on, and only its locks change hands. -/
theorem Discipline.moved (h : s.Discipline) (hpc : s'.pc = Function.update s.pc p c) (hproc : s'.proc = s.proc)
    (hself : s'.wait_lock = some p ↔ c.holdsWait = true)
    (hwait : ∀ p', p' ≠ p → (s'.wait_lock = some p' ↔ s.wait_lock = some p'))
    (hl : ∀ q, c.holdsLock p = some q → s'.lock q = some p)
    (hlock : ∀ p' q, p' ≠ p → s.lock q = some p' → s'.lock q = some p')
    (hc : c = .waiting → (s.proc p).state = .SLEEPING → (s.proc p).chan = some (.proc p)) : s'.Discipline := by
  refine ⟨fun p' => ?_, fun p' q => ?_, fun p' => ?_⟩
  all_goals
    rw [hpc]
    by_cases hp : p' = p
  · rw [hp, update_self]; exact hself
  · rw [update_of_ne hp, hwait p' hp]; exact h.holds p'
  · rw [hp, update_self]; exact hl q
  · rw [update_of_ne hp]; exact fun hq => hlock p' q hp (h.locks p' q hq)
  · rw [hp, update_self, hproc]; exact hc
  · rw [update_of_ne hp, hproc]; exact h.chan p'

theorem Discipline.goto (h : s.Discipline) (hw : c.holdsWait = (s.pc p).holdsWait)
    (hl : ∀ q, c.holdsLock p = some q → s.lock q = some p)
    (hc : c = .waiting → (s.proc p).state = .SLEEPING → (s.proc p).chan = some (.proc p)) : (s.goto p c).Discipline :=
  h.moved rfl rfl (by rw [hw]; exact h.holds p) (fun _ _ => Iff.rfl) hl (fun _ _ _ => id) hc

/-- A move between points with no lock of a process held. -/
theorem Discipline.move (h : s.Discipline) (hw : c.holdsWait = (s.pc p).holdsWait)
    (hl : c.holdsLock p = none) (hc : c ≠ .waiting) : (s.goto p c).Discipline :=
  h.goto hw (fun _ hq => nomatch hl.symm.trans hq) fun he => absurd he hc

variable {y : Proc}

theorem Discipline.setProc (h : s.Discipline)
    (hy : s.pc q = .waiting → y.state = .SLEEPING → y.chan = some (.proc q)) : (s.setProc q y).Discipline := by
  refine ⟨h.holds, h.locks, fun p => ?_⟩
  unfold ProcSys.setProc
  dsimp only
  by_cases hp : p = q
  · rw [hp, update_self]; exact hy
  · rw [update_of_ne hp]; exact h.chan p

/-- Of a process that does not fall asleep. -/
theorem Discipline.setAwake (h : s.Discipline) (hy : y.state ≠ .SLEEPING) : (s.setProc q y).Discipline :=
  h.setProc fun _ hs => absurd hs hy

theorem Discipline.acquireWait (h : s.Discipline) (hfree : s.wait_lock = none)
    (hw : c.holdsWait = true) (hl : c.holdsLock p = none) (hc : c ≠ .waiting) :
    ((s.acquireWait p).goto p c).Discipline := by
  refine h.moved rfl rfl ⟨fun _ => hw, fun _ => rfl⟩ (fun p' hp => ⟨fun he => ?_, fun he => ?_⟩)
    (fun q hq => nomatch hl.symm.trans hq) (fun _ _ _ => id) fun he => absurd he hc
  · exact absurd (Option.some.inj he).symm hp
  · cases hfree.symm.trans he

theorem Discipline.releaseWait (h : s.Discipline) (hheld : (s.pc p).holdsWait = true)
    (hw : c.holdsWait = false) (hl : ∀ q, c.holdsLock p = some q → s.lock q = some p)
    (hc : c ≠ .waiting) : (s.releaseWait.goto p c).Discipline := by
  refine h.moved rfl rfl ⟨nofun, fun he => nomatch hw.symm.trans he⟩ (fun p' hp => ⟨nofun, fun he => ?_⟩) hl
    (fun _ _ _ => id) fun he => absurd he hc
  exact absurd (Option.some.inj (((h.holds p).mpr hheld).symm.trans he)).symm hp

theorem Discipline.acquire (h : s.Discipline) (hfree : s.lock q = none) : (s.acquire p q).Discipline := by
  refine ⟨h.holds, fun p' q' hl => ?_, h.chan⟩
  have hheld := h.locks p' q' hl
  have hne : q' ≠ q := by
    rintro rfl
    rw [hfree] at hheld
    cases hheld
  unfold ProcSys.acquire
  dsimp only
  rw [update_of_ne hne]
  exact hheld

/-- The holder of a lock gives it up and moves on. -/
theorem Discipline.release (h : s.Discipline) (hheld : (s.pc p).holdsLock p = some q)
    (hw : c.holdsWait = (s.pc p).holdsWait) (hl : c.holdsLock p = none)
    (hc : c = .waiting → (s.proc p).state = .SLEEPING → (s.proc p).chan = some (.proc p)) :
    ((s.release q).goto p c).Discipline := by
  refine h.moved rfl rfl (by rw [hw]; exact h.holds p) (fun _ _ => Iff.rfl) (fun q hq => nomatch hl.symm.trans hq)
    (fun p' q' hp hq' => ?_) hc
  have hne : q' ≠ q := by
    rintro rfl
    exact hp (Option.some.inj (hq'.symm.trans (h.locks p q' hheld)))
  exact (update_of_ne hne ..).trans hq'

/-! ## §2. Sleepers and zombies. -/

/-- In `wait`, asleep or with the decision to sleep made. -/
def asleep (s : ProcSys) (p : Slot) : Prop :=
  s.pc p = .sleepLocked ∨ (s.pc p = .waiting ∧ (s.proc p).state = .SLEEPING)

/-- No process asleep in `wait` has a zombie child. -/
def NoLost (s : ProcSys) : Prop :=
  ∀ p c, s.asleep p → (s.proc c).parent = some p → (s.proc c).state ≠ .ZOMBIE

/-- The same, but for `initproc`, which the loop of `wakeup` has yet to reach. -/
def NoLostFrom (s : ProcSys) (j : Nat) : Prop :=
  ∀ p c, s.asleep p → (s.proc c).parent = some p → (s.proc c).state = .ZOMBIE →
    p = initproc ∧ j ≤ p.val

/-- What the holder `e` of `wait_lock` has established at each point. -/
def Guard (s : ProcSys) (e : Slot) : Pc → Prop
  | .reparent _ i =>
    e ≠ initproc ∧ s.NoLost ∧ ∀ c : Slot, c.val < i → (s.proc c).parent ≠ some e
  | .reparentWake _ i j =>
    e ≠ initproc ∧ s.NoLostFrom j ∧ ∀ c : Slot, c.val < i + 1 → (s.proc c).parent ≠ some e
  | .exitWake _ chan j =>
    e ≠ initproc ∧ s.NoLost ∧ (∀ c : Slot, (s.proc c).parent ≠ some e)
      ∧ ∀ q, (s.proc e).parent = some q → chan = some (.proc q) ∧ (s.asleep q → j ≤ q.val)
  | .exitZombie _ =>
    e ≠ initproc ∧ s.NoLost ∧ (∀ c : Slot, (s.proc c).parent ≠ some e)
      ∧ ∀ q, (s.proc e).parent = some q → ¬ s.asleep q
  | .waitScan i _ =>
    s.NoLost ∧ ∀ c : Slot, c.val < i → (s.proc c).parent = some e → (s.proc c).state ≠ .ZOMBIE
  | .waitSleep =>
    s.NoLost ∧ ∀ c : Slot, (s.proc c).parent = some e → (s.proc c).state ≠ .ZOMBIE
  | _ => True

/-- Fewer sleepers in `wait`, fewer children, fewer zombies. -/
structure Quieter (s s' : ProcSys) : Prop where
  asleep : ∀ p, s'.asleep p → s.asleep p
  parent : ∀ c q, (s'.proc c).parent = some q → (s.proc c).parent = some q
  zombie : ∀ c, (s'.proc c).state = .ZOMBIE → (s.proc c).state = .ZOMBIE

theorem Quieter.trans (h : Quieter s s₁) (h' : Quieter s₁ s') : Quieter s s' :=
  ⟨fun p hp => h.asleep p (h'.asleep p hp), fun c q hc => h.parent c q (h'.parent c q hc),
    fun c hc => h.zombie c (h'.zombie c hc)⟩

theorem quieter_goto (s : ProcSys) (p : Slot) (c : Pc) (hc : c ≠ .sleepLocked)
    (hc' : c ≠ .waiting) : Quieter s (s.goto p c) := by
  refine ⟨fun p' hp => ?_, fun _ _ h => h, fun _ h => h⟩
  unfold ProcSys.asleep ProcSys.goto at *
  dsimp only at hp
  by_cases hpp : p' = p
  · rw [hpp, update_self] at hp
    exact hp.elim (absurd · hc) fun hw => absurd hw.1 hc'
  · rw [update_of_ne hpp] at hp
    exact hp

theorem quieter_setProc (s : ProcSys) (q : Slot) (y : Proc) (hs : y.state = .SLEEPING → (s.proc q).state = .SLEEPING)
    (hp : ∀ r, y.parent = some r → (s.proc q).parent = some r)
    (hz : y.state = .ZOMBIE → (s.proc q).state = .ZOMBIE) : Quieter s (s.setProc q y) := by
  unfold ProcSys.setProc
  refine ⟨fun p => ?_, fun c r => ?_, fun c => ?_⟩
  · unfold ProcSys.asleep
    dsimp only
    by_cases hpq : p = q
    · rw [hpq, update_self]
      exact Or.imp_right fun hw => ⟨hw.1, hs hw.2⟩
    · rw [update_of_ne hpq]; exact id
  · dsimp only
    by_cases hcq : c = q
    · rw [hcq, update_self]; exact hp r
    · rw [update_of_ne hcq]; exact id
  · dsimp only
    by_cases hcq : c = q
    · rw [hcq, update_self]; exact hz
    · rw [update_of_ne hcq]; exact id

theorem asleep_goto {r : Slot} (ha : (s.goto p c).asleep r) (hc : c ≠ .sleepLocked)
    (hc' : c ≠ .waiting) : s.asleep r ∧ r ≠ p := by
  refine ⟨(quieter_goto s p c hc hc').asleep r ha, ?_⟩
  rintro rfl
  unfold ProcSys.asleep ProcSys.goto at ha
  dsimp only at ha
  rw [update_self] at ha
  exact ha.elim (absurd · hc) fun hw => absurd hw.1 hc'

theorem proc_setParent (s : ProcSys) (q d : Slot) (x : Option Slot) :
    ((s.setParent q x).proc d).state = (s.proc d).state
      ∧ ((s.setParent q x).proc d).parent = if d = q then x else (s.proc d).parent := by
  unfold ProcSys.setParent ProcSys.setProc
  dsimp only
  by_cases hd : d = q
  · rw [hd, update_self, if_pos rfl]; exact ⟨rfl, rfl⟩
  · rw [update_of_ne hd, if_neg hd]; exact ⟨rfl, rfl⟩

theorem asleep_setParent {r : Slot} {x : Option Slot} (ha : (s.setParent q x).asleep r) : s.asleep r := by
  unfold ProcSys.asleep at ha ⊢
  rw [(s.proc_setParent q r x).1] at ha
  exact ha

theorem NoLost.quieter (h : s.NoLost) (hq : Quieter s s') : s'.NoLost := fun p c ha hp hz =>
  h p c (hq.asleep p ha) (hq.parent c p hp) (hq.zombie c hz)

variable {j : Nat}

theorem NoLostFrom.quieter (h : s.NoLostFrom j) (hq : Quieter s s') : s'.NoLostFrom j :=
  fun p c ha hp hz => h p c (hq.asleep p ha) (hq.parent c p hp) (hq.zombie c hz)

/-- **Interference**: what others do leaves the holder's guard true. -/
theorem Guard.quieter {e : Slot} (h : s.Guard e c) (hq : Quieter s s') : s'.Guard e c := by
  have hnot : ∀ d : Slot, (s.proc d).parent ≠ some e → (s'.proc d).parent ≠ some e :=
    fun d hd hp => hd (hq.parent d e hp)
  cases c with
  | reparent status i | reparentWake status i j => exact ⟨h.1, h.2.1.quieter hq, fun d hd => hnot d (h.2.2 d hd)⟩
  | exitWake status chan j =>
    refine ⟨h.1, h.2.1.quieter hq, fun d => hnot d (h.2.2.1 d), fun r hr => ?_⟩
    obtain ⟨hchan, hj⟩ := h.2.2.2 r (hq.parent e r hr)
    exact ⟨hchan, fun ha => hj (hq.asleep r ha)⟩
  | exitZombie status =>
    exact ⟨h.1, h.2.1.quieter hq, fun d => hnot d (h.2.2.1 d), fun r hr ha =>
      h.2.2.2 r (hq.parent e r hr) (hq.asleep r ha)⟩
  | waitScan i havekids =>
    exact ⟨h.1.quieter hq, fun d hd hp hz => h.2 d hd (hq.parent d e hp) (hq.zombie d hz)⟩
  | waitSleep => exact ⟨h.1.quieter hq, fun d hp hz => h.2 d (hq.parent d e hp) (hq.zombie d hz)⟩
  | _ => exact trivial

/-! ## §3. The monitor. -/

/-- No wakeup of a waiting parent is lost. -/
structure WaitInv (s : ProcSys) : Prop where
  locks : s.Discipline
  free : s.wait_lock = none → s.NoLost
  held : ∀ e, s.wait_lock = some e → s.Guard e (s.pc e)

variable (h : s.WaitInv)
include h

/-- A step outside the monitor. -/
theorem WaitInv.outside (hlocks : s'.Discipline) (hq : Quieter s s') (hw : s'.wait_lock = s.wait_lock)
    (hpc : ∀ e, (s.pc e).holdsWait = true → s'.pc e = s.pc e) : s'.WaitInv := by
  refine ⟨hlocks, fun hfree => ?_, fun e he => ?_⟩
  · exact (h.free (hw ▸ hfree)).quieter hq
  · rw [hw] at he
    rw [hpc e ((h.locks.holds e).mp he)]
    exact (h.held e he).quieter hq

/-- The holder goes from one point of the monitor to another. -/
theorem WaitInv.inside (hp : (s.pc p).holdsWait = true) (hlocks : s'.Discipline)
    (hw : s'.wait_lock = s.wait_lock) (hguard : s'.Guard p (s'.pc p)) : s'.WaitInv := by
  have hsome := (h.locks.holds p).mpr hp
  refine ⟨hlocks, fun hfree => ?_, fun e he => ?_⟩
  · rw [hw, hsome] at hfree
    cases hfree
  · rw [hw, hsome] at he
    cases he
    exact hguard

theorem WaitInv.guard (hp : s.pc p = c) (hc : c.holdsWait = true) : s.Guard p c := by
  have := h.held p ((h.locks.holds p).mpr (by rw [hp]; exact hc))
  rw [hp] at this
  exact this

omit h

theorem pc_goto (s : ProcSys) (p : Slot) (c : Pc) : (s.goto p c).pc p = c :=
  update_self ..

/-- The other processes stay where they are. -/
theorem goto_holder (hp : (s.pc p).holdsWait = false) : ∀ e, (s.pc e).holdsWait = true → (s.goto p c).pc e = s.pc e := by
  intro e he
  refine update_of_ne ?_ ..
  rintro rfl
  exact Bool.noConfusion (hp.symm.trans he)

include h

/-- A process that holds nothing moves. -/
theorem WaitInv.move (hp : (s.pc p).holdsWait = false) (hw : c.holdsWait = false)
    (hl : c.holdsLock p = none) (hc : c ≠ .waiting) : (s.goto p c).WaitInv := by
  have hc' : c ≠ .sleepLocked := by
    rintro rfl
    cases hl
  exact h.outside (h.locks.move (hw.trans hp.symm) hl hc) (quieter_goto s p c hc' hc) rfl (goto_holder hp)

/-- The fields of one process change. -/
theorem WaitInv.setProc (hy : s.pc q = .waiting → y.state = .SLEEPING → y.chan = some (.proc q))
    (hs : y.state = .SLEEPING → (s.proc q).state = .SLEEPING) (hp : ∀ r, y.parent = some r → (s.proc q).parent = some r)
    (hz : y.state = .ZOMBIE → (s.proc q).state = .ZOMBIE) : (s.setProc q y).WaitInv :=
  h.outside (h.locks.setProc hy) (quieter_setProc s q y hs hp hz) rfl fun _ _ => rfl

/-- The state of one process changes, not to `SLEEPING` or `ZOMBIE`. -/
theorem WaitInv.setState {state : ProcState} (hs : state ≠ .SLEEPING)
    (hz : state ≠ .ZOMBIE) : (s.setState q state).WaitInv :=
  h.setProc (fun _ he => absurd he hs) (fun he => absurd he hs) (fun _ hr => hr)
    fun he => absurd he hz

theorem WaitInv.acquireWait (hfree : s.wait_lock = none)
    (hw : c.holdsWait = true) (hl : c.holdsLock p = none) (hc : c ≠ .waiting)
    (hguard : (s.goto p c).Guard p c) : ((s.acquireWait p).goto p c).WaitInv := by
  refine ⟨h.locks.acquireWait hfree hw hl hc, nofun, fun e he => ?_⟩
  obtain rfl : p = e := Option.some.inj he
  rw [pc_goto]
  exact hguard.quieter ⟨fun _ ha => ha, fun _ _ hp => hp, fun _ hz => hz⟩

theorem WaitInv.releaseWait (hheld : (s.pc p).holdsWait = true)
    (hw : c.holdsWait = false) (hl : ∀ q, c.holdsLock p = some q → s.lock q = some p)
    (hc : c ≠ .waiting) (hlost : (s.goto p c).NoLost) : (s.releaseWait.goto p c).WaitInv :=
  ⟨h.locks.releaseWait hheld hw hl hc, fun _ => hlost, nofun⟩

omit h

/-! ## §4. Steps outside the monitor. -/

theorem Quieter.congr (h : Quieter s s₁) (hproc : s'.proc = s₁.proc) (hpc : s'.pc = s₁.pc) : Quieter s s' := by
  refine ⟨fun p ha => h.asleep p ?_, fun c q => ?_, fun c => ?_⟩
  · unfold ProcSys.asleep at ha ⊢
    rw [hproc, hpc] at ha
    exact ha
  · rw [hproc]; exact h.parent c q
  · rw [hproc]; exact h.zombie c

variable {i : Nat}

include h

theorem WaitInv.allocTurn (hpc : s.pc p = .forkScan i)
    (hst : s.allocTurn p q i = .ok s') : s'.WaitInv := by
  have hp : (s.pc p).holdsWait = false := by rw [hpc]; rfl
  unfold ProcSys.allocTurn at hst
  split at hst
  · cases hst
  next hfree =>
  split at hst
  · cases hst
    have hused : (s.setProc q { s.proc q with pid := s.nextpid, state := .USED }).Discipline :=
      h.locks.setAwake nofun
    have halloc : (s.allocpid q).Discipline := ⟨hused.holds, hused.locks, hused.chan⟩
    refine h.outside ((halloc.acquire (not_not.mp hfree)).goto hp.symm (fun r hr => ?_) nofun) ?_
      rfl (goto_holder hp)
    · cases hr
      exact update_self ..
    · refine (quieter_setProc s q { s.proc q with pid := s.nextpid, state := .USED }
        nofun (fun _ hr => hr) nofun).trans ?_
      exact (quieter_goto _ p (.forkFound q) nofun nofun).congr rfl rfl
  · cases hst
    exact h.move hp rfl rfl nofun

theorem WaitInv.forkFound {np : Slot} (hpc : s.pc p = .forkFound np) :
    ((s.release np).goto p (.forkParent np)).WaitInv ∧ (((s.freeproc np).release np).goto p .run).WaitInv := by
  have hp : (s.pc p).holdsWait = false := by rw [hpc]; rfl
  have hl : (s.pc p).holdsLock p = some np := by rw [hpc]; rfl
  constructor
  · exact h.outside (h.locks.release hl hp.symm rfl nofun)
      ((quieter_goto s p (.forkParent np) nofun nofun).congr rfl rfl) rfl (goto_holder hp)
  · have hfree : (s.freeproc np).Discipline := h.locks.setAwake nofun
    refine h.outside (hfree.release hl hp.symm rfl nofun) ?_ rfl (goto_holder hp)
    refine (quieter_setProc s np ⟨.UNUSED, none, false, 0, 0, none⟩ nofun nofun nofun).trans ?_
    exact (quieter_goto _ p .run nofun nofun).congr rfl rfl

/-- **fork** gives a process a child; it does not sleep in `wait`. -/
theorem WaitInv.forkParent {np : Slot} (hpc : s.pc p = .forkParent np)
    (hfree : s.wait_lock = none) : ((s.setParent np (some p)).goto p (.forkReady np)).WaitInv := by
  have hp : (s.pc p).holdsWait = false := by rw [hpc]; rfl
  have hset : (s.setParent np (some p)).Discipline := h.locks.setProc (h.locks.chan np)
  refine ⟨hset.move hp.symm rfl nofun, fun _ q d ha hq hz => ?_, fun e he => ?_⟩
  · obtain ⟨ha, hne⟩ := asleep_goto ha nofun nofun
    have hparent : ((s.setParent np (some p)).proc d).parent = some q := hq
    have hzombie : ((s.setParent np (some p)).proc d).state = .ZOMBIE := hz
    obtain ⟨hs, hpar⟩ := s.proc_setParent np d (some p)
    rw [hpar] at hparent
    rw [hs] at hzombie
    split at hparent
    · exact hne (Option.some.inj hparent).symm
    · exact h.free hfree q d (asleep_setParent ha) hparent hzombie
  · exact nomatch hfree.symm.trans he

theorem WaitInv.killTurn {pid : BitVec 32}
    (hpc : s.pc p = .kill pid i) (hst : s.killTurn p q pid i = .ok s') : s'.WaitInv := by
  have hp : (s.pc p).holdsWait = false := by rw [hpc]; rfl
  unfold ProcSys.killTurn at hst
  split at hst
  · cases hst
  split at hst
  · cases hst
    refine WaitInv.move (h.setProc ?_ ?_ (fun _ hr => hr) ?_) hp rfl rfl nofun
    all_goals
      split
    · exact fun _ => nofun
    · exact fun hw => h.locks.chan q hw
    · exact nofun
    · exact id
    · exact nofun
    · exact id
  · cases hst
    exact h.move hp rfl rfl nofun

/-- **sleep** in `wait`: `p->lock` is held since `wait_lock` was released. -/
theorem WaitInv.sleepLocked (hpc : s.pc p = .sleepLocked) :
    (((s.setProc p { s.proc p with
      chan := some (.proc p), state := .SLEEPING }).release p).goto p .waiting).WaitInv := by
  have hp : (s.pc p).holdsWait = false := by rw [hpc]; rfl
  have hl : (s.pc p).holdsLock p = some p := by rw [hpc]; rfl
  have hset : (s.setProc p { s.proc p with
      chan := some (.proc p), state := .SLEEPING }).Discipline := h.locks.setProc fun _ _ => rfl
  have hat : (s.setProc p { s.proc p with chan := some (.proc p), state := .SLEEPING }).proc p
      = { s.proc p with chan := some (.proc p), state := .SLEEPING } := update_self ..
  refine h.outside (hset.release hl hp.symm rfl fun _ _ => by rw [hat]) ?_ rfl (goto_holder hp)
  unfold ProcSys.goto ProcSys.release ProcSys.setProc
  refine ⟨fun q ha => ?_, fun d r => ?_, fun d => ?_⟩
  · by_cases hq : q = p
    · rw [hq]
      exact Or.inl hpc
    · unfold ProcSys.asleep at ha ⊢
      dsimp only at ha
      rw [update_of_ne hq, update_of_ne hq] at ha
      exact ha
  · dsimp only
    by_cases hd : d = p
    · rw [hd, update_self]; exact id
    · rw [update_of_ne hd]; exact id
  · dsimp only
    by_cases hd : d = p
    · rw [hd, update_self]; exact nofun
    · rw [update_of_ne hd]; exact id

omit h

/-! ## §5. Steps of the holder. -/

variable {chan : Option SleepChan}

/-- **One turn of `wakeup`**: the slot it has looked at is not asleep on the
channel any more. -/
theorem Discipline.wakeupTurn (h : s.Discipline) {me : Slot}
    (hst : s.wakeupTurn me q chan = .ok s') : s'.Discipline ∧ Quieter s s' ∧ s'.pc = s.pc ∧ s'.wait_lock = s.wait_lock
      ∧ (q ≠ me → chan = some (.proc q) → ¬ s'.asleep q) := by
  have hrefl : Quieter s s := ⟨fun _ ha => ha, fun _ _ hp => hp, fun _ hz => hz⟩
  unfold ProcSys.wakeupTurn at hst
  split at hst
  · next hme =>
    cases hst
    exact ⟨h, hrefl, rfl, rfl, fun hne => absurd hme hne⟩
  split at hst
  · cases hst
  next hlock =>
  have hnotLocked : s.pc q ≠ .sleepLocked := by
    intro hpc
    have := h.locks q q (by rw [hpc]; rfl)
    rw [not_not.mp hlock] at this
    cases this
  split at hst
  · cases hst
    refine ⟨h.setAwake nofun,
      quieter_setProc s q { s.proc q with state := .RUNNABLE } nofun (fun _ hr => hr) nofun,
      rfl, rfl, ?_⟩
    rintro - - (hpc | ⟨-, hs⟩)
    · exact hnotLocked hpc
    · unfold ProcSys.setState ProcSys.setProc at hs
      dsimp only at hs
      rw [update_self] at hs
      cases hs
  · next hno =>
    cases hst
    refine ⟨h, hrefl, rfl, rfl, ?_⟩
    rintro - rfl (hpc | ⟨hpc, hs⟩)
    · exact hnotLocked hpc
    · exact hno ⟨hs, h.chan q hpc hs⟩

variable {status : BitVec 32}

include h

theorem WaitInv.reparentTurn (hi : q.val = i)
    (hpc : s.pc p = .reparent status i) : (s.reparentTurn p q status i).WaitInv := by
  have hp : (s.pc p).holdsWait = true := by rw [hpc]; rfl
  obtain ⟨hinit, hlost, hno⟩ := h.guard hpc rfl
  have hlt : ∀ d : Slot, d.val < i + 1 → d ≠ q → (s.proc d).parent ≠ some p := by
    intro d hd hne
    refine hno d (Nat.lt_of_le_of_ne (Nat.le_of_lt_succ hd) fun he => hne (Fin.ext ?_))
    rw [he, hi]
  unfold ProcSys.reparentTurn
  split
  · have hset : (s.setParent q (some initproc)).Discipline := h.locks.setProc (h.locks.chan q)
    refine h.inside hp (hset.move hp.symm rfl nofun) rfl ?_
    rw [pc_goto]
    refine ⟨hinit, fun r d ha hr hz => ?_, fun d hd hr => ?_⟩
    · obtain ⟨hs, hpar⟩ := s.proc_setParent q d (some initproc)
      have hr : ((s.setParent q (some initproc)).proc d).parent = some r := hr
      have hz : ((s.setParent q (some initproc)).proc d).state = .ZOMBIE := hz
      rw [hpar] at hr
      rw [hs] at hz
      split at hr
      · -- the adopted child may be a zombie; `wakeup(initproc)` comes next
        exact ⟨(Option.some.inj hr).symm, Nat.zero_le _⟩
      · exact absurd hz (hlost r d (asleep_setParent (asleep_goto ha nofun nofun).1) hr)
    · have hr : ((s.setParent q (some initproc)).proc d).parent = some p := hr
      rw [(s.proc_setParent q d (some initproc)).2] at hr
      split at hr
      · exact hinit (Option.some.inj hr).symm
      · next hne => exact hlt d hd hne hr
  · next hne =>
    refine h.inside hp (h.locks.move hp.symm rfl nofun) rfl ?_
    rw [pc_goto]
    refine ⟨hinit, hlost.quieter (quieter_goto s p _ nofun nofun), fun d hd => ?_⟩
    by_cases hdq : d = q
    · rw [hdq]; exact hne
    · exact hlt d hd hdq

theorem WaitInv.reparentWake (hj : q.val = j)
    (hpc : s.pc p = .reparentWake status i j) (hst : s.wakeupTurn p q (some (.proc initproc)) = .ok s₁) :
    (s₁.goto p (.reparentWake status i (j + 1))).WaitInv := by
  have hp : (s.pc p).holdsWait = true := by rw [hpc]; rfl
  obtain ⟨hinit, hlost, hno⟩ := h.guard hpc rfl
  obtain ⟨hlocks, hquiet, hpc₁, hwait, hawake⟩ := h.locks.wakeupTurn hst
  have hp₁ : (s₁.pc p).holdsWait = true := by rw [hpc₁]; exact hp
  refine h.inside hp (hlocks.move hp₁.symm rfl nofun) hwait ?_
  rw [pc_goto]
  refine ⟨hinit, fun r d ha hr hz => ?_, fun d hd hr => hno d hd (hquiet.parent d p hr)⟩
  obtain ⟨ha, -⟩ := asleep_goto ha nofun nofun
  obtain ⟨hri, hjr⟩ := hlost r d (hquiet.asleep r ha) (hquiet.parent d r hr) (hquiet.zombie d hz)
  refine ⟨hri, Nat.lt_of_le_of_ne hjr fun hjr => ?_⟩
  -- this turn was for `initproc`, which is awake now
  have hrq : r = q := Fin.ext (by rw [hj, hjr])
  have hqp : q ≠ p := by rw [← hrq, hri]; exact hinit.symm
  exact hawake hqp (by rw [← hrq, hri]) (hrq ▸ ha)

theorem WaitInv.reparentWake_end
    (hj : ¬ j < NPROC) (hpc : s.pc p = .reparentWake status i j) : (s.goto p (.reparent status (i + 1))).WaitInv := by
  have hp : (s.pc p).holdsWait = true := by rw [hpc]; rfl
  obtain ⟨hinit, hlost, hno⟩ := h.guard hpc rfl
  refine h.inside hp (h.locks.move hp.symm rfl nofun) rfl ?_
  rw [pc_goto]
  refine ⟨hinit, fun r d ha hr hz => ?_, hno⟩
  obtain ⟨-, hjr⟩ := hlost r d (asleep_goto ha nofun nofun).1 hr hz
  exact hj (Nat.lt_of_le_of_lt hjr r.isLt)

theorem WaitInv.reparent_end (hi : ¬ i < NPROC) (hpc : s.pc p = .reparent status i) :
    (s.goto p (.exitWake status ((s.proc p).parent.map .proc) 0)).WaitInv := by
  have hp : (s.pc p).holdsWait = true := by rw [hpc]; rfl
  obtain ⟨hinit, hlost, hno⟩ := h.guard hpc rfl
  refine h.inside hp (h.locks.move hp.symm rfl nofun) rfl ?_
  rw [pc_goto]
  refine ⟨hinit, hlost.quieter (quieter_goto s p _ nofun nofun), fun d => ?_, fun r hr => ?_⟩
  · exact hno d (Nat.lt_of_lt_of_le d.isLt (Nat.le_of_not_lt hi))
  · have hr : (s.proc p).parent = some r := hr
    rw [hr]
    exact ⟨rfl, fun _ => Nat.zero_le _⟩

theorem WaitInv.exitWake
    (hj : q.val = j) (hpc : s.pc p = .exitWake status chan j) (hst : s.wakeupTurn p q chan = .ok s₁) :
    (s₁.goto p (.exitWake status chan (j + 1))).WaitInv := by
  have hp : (s.pc p).holdsWait = true := by rw [hpc]; rfl
  obtain ⟨hinit, hlost, hno, hpar⟩ := h.guard hpc rfl
  obtain ⟨hlocks, hquiet, hpc₁, hwait, hawake⟩ := h.locks.wakeupTurn hst
  have hp₁ : (s₁.pc p).holdsWait = true := by rw [hpc₁]; exact hp
  refine h.inside hp (hlocks.move hp₁.symm rfl nofun) hwait ?_
  rw [pc_goto]
  have hquiet' := hquiet.trans (quieter_goto s₁ p (.exitWake status chan (j + 1)) nofun nofun)
  refine ⟨hinit, hlost.quieter hquiet', fun d hr => hno d (hquiet'.parent d p hr), fun r hr => ?_⟩
  obtain ⟨hchan, hle⟩ := hpar r (hquiet'.parent p r hr)
  refine ⟨hchan, fun ha => ?_⟩
  obtain ⟨ha₁, hrp⟩ := asleep_goto ha nofun nofun
  refine Nat.lt_of_le_of_ne (hle (hquiet.asleep r ha₁)) fun hjr => ?_
  have hrq : r = q := Fin.ext (by rw [hj, hjr])
  exact hawake (hrq ▸ hrp) (hrq ▸ hchan) (hrq ▸ ha₁)

theorem WaitInv.exitWake_end
    (hj : ¬ j < NPROC) (hpc : s.pc p = .exitWake status chan j) : (s.goto p (.exitZombie status)).WaitInv := by
  have hp : (s.pc p).holdsWait = true := by rw [hpc]; rfl
  obtain ⟨hinit, hlost, hno, hpar⟩ := h.guard hpc rfl
  refine h.inside hp (h.locks.move hp.symm rfl nofun) rfl ?_
  rw [pc_goto]
  refine ⟨hinit, hlost.quieter (quieter_goto s p _ nofun nofun), hno, fun r hr ha => ?_⟩
  have hle := (hpar r hr).2 (asleep_goto ha nofun nofun).1
  exact hj (Nat.lt_of_le_of_lt hle r.isLt)

/-- **exit**: the parent has been woken before its child becomes a zombie. -/
theorem WaitInv.exitZombie (hpc : s.pc p = .exitZombie status)
    (hfree : s.lock p = none) :
    (((s.setProc p { s.proc p with
      xstate := status, state := .ZOMBIE }).acquire p p).releaseWait.goto p .zombie).WaitInv := by
  have hp : (s.pc p).holdsWait = true := by rw [hpc]; rfl
  obtain ⟨-, hlost, -, hpar⟩ := h.guard hpc rfl
  have hset : (s.setProc p { s.proc p with xstate := status, state := .ZOMBIE }).Discipline :=
    h.locks.setAwake nofun
  refine ⟨(hset.acquire hfree).releaseWait hp rfl (fun r hr => ?_) nofun, fun _ r d ha hr hz => ?_,
    nofun⟩
  · cases hr
    exact update_self ..
  obtain ⟨ha, hrp⟩ := asleep_goto ha nofun nofun
  have ha : s.asleep r := by
    unfold ProcSys.asleep ProcSys.releaseWait ProcSys.acquire ProcSys.setProc at ha
    dsimp only at ha
    rw [update_of_ne hrp] at ha
    exact ha
  unfold ProcSys.goto ProcSys.releaseWait ProcSys.acquire ProcSys.setProc at hr hz
  dsimp only at hr hz
  by_cases hd : d = p
  · rw [hd, update_self] at hr
    exact hpar r hr ha
  · rw [update_of_ne hd] at hr hz
    exact hlost r d ha hr hz

variable {havekids : Bool}

theorem WaitInv.waitTurn {copied : Bool} (hi : q.val = i)
    (hpc : s.pc p = .waitScan i havekids) (hst : s.waitTurn p q i havekids copied = .ok s') : s'.WaitInv := by
  have hp : (s.pc p).holdsWait = true := by rw [hpc]; rfl
  obtain ⟨hlost, hscan⟩ := h.guard hpc rfl
  -- the scan goes on if `q` is not a zombie child
  have hnext : ∀ havekids, ((s.proc q).parent = some p → (s.proc q).state ≠ .ZOMBIE) →
      (s.goto p (.waitScan (i + 1) havekids)).WaitInv := by
    intro havekids hq
    refine h.inside hp (h.locks.move hp.symm rfl nofun) rfl ?_
    rw [pc_goto]
    refine ⟨hlost.quieter (quieter_goto s p _ nofun nofun), fun d hd => ?_⟩
    by_cases hdq : d = q
    · rw [hdq]; exact hq
    · refine hscan d (Nat.lt_of_le_of_ne (Nat.le_of_lt_succ hd) fun he => hdq (Fin.ext ?_))
      rw [he, hi]
  unfold ProcSys.waitTurn at hst
  split at hst
  · split at hst
    · cases hst
    split at hst
    · split at hst
      · cases hst
        have hq := quieter_setProc s q ⟨.UNUSED, none, false, 0, 0, none⟩ nofun nofun nofun
        have hset : (s.freeproc q).Discipline := h.locks.setAwake nofun
        have hfreed : Discipline { s.freeproc q with freed := s.born q :: s.freed } :=
          ⟨hset.holds, hset.locks, hset.chan⟩
        refine ⟨hfreed.releaseWait hp rfl nofun nofun, fun _ => ?_, nofun⟩
        exact hlost.quieter ((hq.trans (quieter_goto _ p .run nofun nofun)).congr rfl rfl)
      · cases hst
        exact h.releaseWait hp rfl nofun nofun
          (hlost.quieter (quieter_goto s p .run nofun nofun))
    · next hz =>
      cases hst
      exact hnext true fun _ => hz
  · next hpar =>
    cases hst
    exact hnext havekids fun he => absurd he hpar

/-- **wait** decides to sleep: none of its children is a zombie. -/
theorem WaitInv.waitSleep (hpc : s.pc p = .waitSleep) (hfree : s.lock p = none) :
    ((s.acquire p p).releaseWait.goto p .sleepLocked).WaitInv := by
  have hp : (s.pc p).holdsWait = true := by rw [hpc]; rfl
  obtain ⟨hlost, hscan⟩ := h.guard hpc rfl
  refine ⟨(h.locks.acquire hfree).releaseWait hp rfl (fun r hr => ?_) nofun,
    fun _ r d ha hr hz => ?_, nofun⟩
  · cases hr
    exact update_self ..
  by_cases hrp : r = p
  · rw [hrp] at hr
    exact hscan d hr hz
  · refine hlost r d ?_ hr hz
    unfold ProcSys.asleep ProcSys.goto at ha
    dsimp only at ha
    rw [update_of_ne hrp] at ha
    exact ha

theorem WaitInv.waitScan_end (hi : ¬ i < NPROC)
    (hpc : s.pc p = .waitScan i havekids) : (s.releaseWait.goto p .run).WaitInv ∧ (s.goto p .waitSleep).WaitInv := by
  have hp : (s.pc p).holdsWait = true := by rw [hpc]; rfl
  obtain ⟨hlost, hscan⟩ := h.guard hpc rfl
  constructor
  · exact h.releaseWait hp rfl nofun nofun (hlost.quieter (quieter_goto s p .run nofun nofun))
  · refine h.inside hp (h.locks.move hp.symm rfl nofun) rfl ?_
    rw [pc_goto]
    exact ⟨hlost.quieter (quieter_goto s p _ nofun nofun), fun d =>
      hscan d (Nat.lt_of_lt_of_le d.isLt (Nat.le_of_not_lt hi))⟩

/-! ## §6. Whole runs. -/

theorem WaitInv.enter_wait (hfree : s.wait_lock = none) :
    ((s.acquireWait p).goto p (.waitScan 0 false)).WaitInv :=
  h.acquireWait hfree rfl rfl nofun
    ⟨(h.free hfree).quieter (quieter_goto s p _ nofun nofun), fun _ hd => absurd hd (Nat.not_lt_zero _)⟩

theorem WaitInv.next {ok : Bool} (hst : s.next p ok = .ok s') : s'.WaitInv := by
  unfold ProcSys.next at hst
  cases hpc : s.pc p with
  | forkScan i =>
    rw [hpc] at hst
    dsimp only at hst
    split at hst
    · exact h.allocTurn hpc hst
    · cases hst
      exact h.move (by rw [hpc]; rfl) rfl rfl nofun
  | forkFound np =>
    rw [hpc] at hst
    dsimp only at hst
    split at hst
    · cases hst; exact (h.forkFound hpc).1
    · cases hst; exact (h.forkFound hpc).2
  | forkParent np =>
    rw [hpc] at hst
    obtain ⟨hfree, rfl⟩ := Lib.guard_ok hst
    exact h.forkParent hpc hfree
  | forkReady np =>
    rw [hpc] at hst
    dsimp only at hst
    split at hst
    · cases hst
    · cases hst
      have hset : (s.setState np .RUNNABLE).WaitInv := h.setState nofun nofun
      exact hset.move (by show (s.pc p).holdsWait = false; rw [hpc]; rfl) rfl rfl nofun
  | reparent status i =>
    rw [hpc] at hst
    dsimp only at hst
    split at hst
    · cases hst; exact h.reparentTurn rfl hpc
    · next hi => cases hst; exact h.reparent_end hi hpc
  | reparentWake status i j =>
    rw [hpc] at hst
    dsimp only at hst
    split at hst
    · obtain ⟨s₁, hw, hst⟩ := Lib.bind_ok hst
      cases hst
      exact h.reparentWake rfl hpc hw
    · next hj => cases hst; exact h.reparentWake_end hj hpc
  | exitWake status chan j =>
    rw [hpc] at hst
    dsimp only at hst
    split at hst
    · obtain ⟨s₁, hw, hst⟩ := Lib.bind_ok hst
      cases hst
      exact h.exitWake rfl hpc hw
    · next hj => cases hst; exact h.exitWake_end hj hpc
  | exitZombie status =>
    rw [hpc] at hst
    dsimp only at hst
    split at hst
    · cases hst
    · next hfree => cases hst; exact h.exitZombie hpc (not_not.mp hfree)
  | waitScan i havekids =>
    rw [hpc] at hst
    dsimp only at hst
    split at hst
    · exact h.waitTurn rfl hpc hst
    · next hi =>
      split at hst
      · cases hst; exact (h.waitScan_end hi hpc).1
      · cases hst; exact (h.waitScan_end hi hpc).2
  | waitSleep =>
    rw [hpc] at hst
    dsimp only at hst
    split at hst
    · cases hst
    · next hfree => cases hst; exact h.waitSleep hpc (not_not.mp hfree)
  | sleepLocked =>
    rw [hpc] at hst
    cases hst
    exact h.sleepLocked hpc
  | waitLock =>
    rw [hpc] at hst
    obtain ⟨hfree, rfl⟩ := Lib.guard_ok hst
    exact h.enter_wait hfree
  | kill pid i =>
    rw [hpc] at hst
    dsimp only at hst
    split at hst
    · exact h.killTurn hpc hst
    · cases hst
      exact h.move (by rw [hpc]; rfl) rfl rfl nofun
  | run | asleep | zombie | waiting => rw [hpc] at hst; cases hst

theorem WaitInv.resume : (s.resume p).WaitInv := by
  have hset := h.setProc (q := p) (y := { s.proc p with chan := none, state := .RUNNING })
    (fun _ => nofun) nofun (fun _ hr => hr) nofun
  unfold ProcSys.resume
  split
  · next hpc => exact hset.move (congrArg Pc.holdsWait hpc) rfl rfl nofun
  · next hpc => exact hset.move (congrArg Pc.holdsWait hpc) rfl rfl nofun
  · exact h.setState nofun nofun

/-- **sleep** on a channel that is not a process. -/
theorem WaitInv.sleep (hpc : s.pc p = .run) (addr : Nat) :
    ((s.setProc p { s.proc p with
      chan := some (.other addr), state := .SLEEPING }).goto p .asleep).WaitInv := by
  have hp : (s.pc p).holdsWait = false := by rw [hpc]; rfl
  have hset : (s.setProc p { s.proc p with
      chan := some (.other addr), state := .SLEEPING }).Discipline :=
    h.locks.setProc fun hw => nomatch hpc.symm.trans hw
  refine h.outside (hset.move hp.symm rfl nofun) ?_ rfl (goto_holder hp)
  refine ⟨fun r ha => ?_, fun d r => ?_, fun d => ?_⟩
  · obtain ⟨ha, hrp⟩ := asleep_goto ha nofun nofun
    unfold ProcSys.asleep ProcSys.setProc at ha
    dsimp only at ha
    rw [update_of_ne hrp] at ha
    exact ha
  all_goals
    unfold ProcSys.goto ProcSys.setProc
    dsimp only
    by_cases hd : d = p
  · rw [hd, update_self]; exact id
  · rw [update_of_ne hd]; exact id
  · rw [hd, update_self]; exact nofun
  · rw [update_of_ne hd]; exact id

theorem WaitInv.step {i : ProcStep} (hst : s.step i = .ok s') : s'.WaitInv := by
  cases i with
  | dispatch p =>
    obtain ⟨-, rfl⟩ := Lib.guard_ok hst
    exact h.resume
  | yield p | wakeup addr q =>
    obtain ⟨-, rfl⟩ := Lib.guard_ok hst
    exact h.setState nofun nofun
  | retire p =>
    obtain ⟨hpc, rfl⟩ := Lib.guard_ok hst
    have hp : (s.pc p).holdsWait = false := by rw [hpc]; rfl
    exact h.outside (h.locks.release (by rw [hpc]; rfl) hp.symm rfl nofun)
      ((quieter_goto s p .run nofun nofun).congr rfl rfl) rfl (goto_holder hp)
  | sleep p addr =>
    obtain ⟨hok, rfl⟩ := Lib.guard_ok hst
    exact h.sleep hok.1.2 addr
  | setkilled p =>
    obtain ⟨-, rfl⟩ := Lib.guard_ok hst
    exact h.setProc (h.locks.chan p) id (fun _ hr => hr) id
  | fork p | kill p pid =>
    obtain ⟨hfree, rfl⟩ := Lib.guard_ok hst
    exact h.move (by rw [hfree.2]; rfl) rfl rfl nofun
  | exit p status =>
    simp only [ProcSys.step] at hst
    split at hst
    · split at hst
      · cases hst
      next hinit =>
      obtain ⟨hfree, rfl⟩ := Lib.guard_ok hst
      refine h.acquireWait hfree rfl rfl nofun ⟨hinit, ?_, fun _ hd => absurd hd (Nat.not_lt_zero _)⟩
      exact (h.free hfree).quieter (quieter_goto s p _ nofun nofun)
    · cases hst
  | wait p =>
    obtain ⟨hok, rfl⟩ := Lib.guard_ok hst
    exact h.enter_wait hok.2
  | next p ok =>
    simp only [ProcSys.step] at hst
    split at hst
    · exact h.next hst
    · cases hst

omit h

theorem boot_waitInv : boot.WaitInv := by
  refine ⟨⟨fun _ => ⟨nofun, nofun⟩, nofun, nofun⟩, fun _ p _ ha => ?_, nofun⟩
  rcases ha with hpc | ⟨hpc, -⟩
  · cases hpc
  · cases hpc

theorem Reachable.waitInv (h : s.Reachable) : s.WaitInv :=
  Lib.Reach.invariant (fun _ he => he ▸ boot_waitInv) (fun _ _ _ hs _ hst => hs.step hst) h

/-- **No exit notification is lost.**  In any interleaving, whenever
`wait_lock` is free, a process that sleeps in `wait` or `waitx` has no zombie
child. -/
theorem no_lost_exit (h : s.Reachable) (hfree : s.wait_lock = none) (p c : Slot)
    (hwait : s.pc p = .waiting) (hsleep : (s.proc p).state = .SLEEPING)
    (hchild : (s.proc c).parent = some p) : (s.proc c).state ≠ .ZOMBIE :=
  h.waitInv.free hfree p c (.inr ⟨hwait, hsleep⟩) hchild

/-- `init` forks a child and sleeps in `wait`. -/
def waitRun : List ProcStep :=
  [.dispatch 0, .fork 0, .next 0 true, .next 0 true, .next 0 true, .next 0 true, .next 0 true,
    .wait 0] ++ List.replicate (NPROC + 3) (.next 0 true)

theorem no_lost_exit_waitRun : ∃ s : ProcSys, s.Reachable ∧ s.pc 0 = .waiting ∧ (s.proc 0).state = .SLEEPING
      ∧ (s.proc 1).parent = some 0 ∧ (s.proc 1).state ≠ .ZOMBIE := by
  have hreach : ∃ s : ProcSys, s.Reachable ∧ decide (s.wait_lock = none ∧ s.pc 0 = .waiting
      ∧ (s.proc 0).state = .SLEEPING ∧ (s.proc 1).parent = some 0) = true :=
    Lib.Reach.of_reaches waitRun _ rfl (by decide +kernel)
  obtain ⟨s, hs, htest⟩ := hreach
  obtain ⟨hfree, hpc, hsleep, hchild⟩ := of_decide_eq_true htest
  exact ⟨s, hs, hpc, hsleep, hchild, no_lost_exit hs hfree 0 1 hpc hsleep hchild⟩

end ProcSys

end Xv6
