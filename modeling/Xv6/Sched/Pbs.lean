/-
  Xv6.Sched.Pbs — priorities over whole runs of the PBS build
  (`dynamic_priority`, `update_ticks`, `set_priority`, `priority_scheduler` of
  `kernel/proc.c`, `sys_setpriority` of `kernel/sysproc.c`).

  `dynamic_priority` divides the ticks slept by the ticks slept and run, in
  whole numbers, and multiplies by ten afterwards: the niceness is 10 for a
  process that has only slept, 0 for one that has run at all, and 5 without
  any ticks (`niceness_cases`).  The sum with the static priority is one of
  `int`s, before it is cut to 0..100.

  The counters of a process count no more ticks than there have been, so
  they do not wrap in the first 2^64 ticks (`Reachable.counted`).

  Main results:
    * `follows_ratio` — when the niceness is the tenth of the time slept,
    * `no_wrap`       — which static priorities do not overflow.
-/
import Xv6.Sched.Select

namespace Xv6.Pbs

open Select

/-! ## §1. The system. -/

/-- The process table and true time. -/
structure Sys where
  proc : Select.Table
  /-- the clock interrupts so far; `ticks` is their number modulo 2^32 -/
  clock : Nat

/-- One turn of the loop of `update_ticks`. -/
def SProc.tick (x : SProc) : SProc :=
  match x.state with
  | .RUNNING => { x with run_ticks := x.run_ticks + 1 }
  | .SLEEPING => { x with sleep_ticks := x.sleep_ticks + 1 }
  | _ => x

/-- `p->static_priority = priority; p->run_ticks = 0; p->sleep_ticks = 0` of `set_priority` -/
def SProc.reprioritize (x : SProc) (priority : Int32) : SProc :=
  { x with static_priority := priority, run_ticks := 0, sleep_ticks := 0 }

/-- A process that `allocproc` and `fork` have made. -/
def SProc.fresh (clock : Nat) : SProc := ⟨.RUNNABLE, (UInt32.ofNat clock).toUInt64, 0, 0, 0, 60⟩

/-- A slot after `freeproc`. -/
def SProc.unused : SProc := ⟨.UNUSED, 0, 0, 0, 0, 0⟩

/-- What the counters depend on. -/
inductive Step where
  /-- `clockintr`: `ticks++` and `update_ticks()` -/
  | tick
  /-- `set_priority` finds its pid in slot `p` -/
  | set_priority (priority : Int32) (p : Slot)
  | schedule
  | fork (p : Slot)
  | yield (p : Slot)
  | sleep (p : Slot)
  /-- `wakeup()` and `kill()` -/
  | wakeup (p : Slot)
  | exit (p : Slot)
  /-- `wait()` frees a zombie -/
  | wait (p : Slot)

/-- A slot changes. -/
def Sys.setProc (s : Sys) (p : Slot) (x : SProc) : Sys := { s with proc := Function.update s.proc p x }

/-- A process goes from one state to another. -/
def Sys.move (s : Sys) (p : Slot) (old new : ProcState) : Except StepFault Sys :=
  if (s.proc p).state = old then .ok (s.setProc p { s.proc p with state := new }) else .error .disabled

/-- What a step does. -/
def step (s : Sys) : Step → Except StepFault Sys
  | .tick => .ok ⟨fun p => SProc.tick (s.proc p), s.clock + 1⟩
  | .set_priority priority p => .ok (s.setProc p (SProc.reprioritize (s.proc p) priority))
  | .schedule =>
    match priority_scheduler s.proc idleCpu with
    | .ok (t, _, _) => .ok { s with proc := t }
    | .error _ => .error .disabled
  | .fork p =>
    if (s.proc p).state = .UNUSED then .ok (s.setProc p (SProc.fresh s.clock)) else .error .disabled
  | .yield p => s.move p .RUNNING .RUNNABLE
  | .sleep p => s.move p .RUNNING .SLEEPING
  | .wakeup p => s.move p .SLEEPING .RUNNABLE
  | .exit p => s.move p .RUNNING .ZOMBIE
  | .wait p => if (s.proc p).state = .ZOMBIE then .ok (s.setProc p SProc.unused) else .error .disabled

/-- After `userinit`. -/
def boot : Sys := ⟨fun p => if p = initproc then SProc.fresh 0 else SProc.unused, 0⟩

/-- The states of all runs. -/
def Reachable (s : Sys) : Prop := Lib.Reach (· = boot) (fun _ _ => True) step s

/-! ## §2. The counters. -/

/-- The ticks that a process has counted. -/
def counted (x : SProc) : Nat := x.sleep_ticks.toNat + x.run_ticks.toNat

section Counters

variable {s s' : Sys} {p : Slot}

/-- A counter that is increased at most by one does not wrap yet. -/
theorem counted_tick {x : SProc} {n : Nat} (h : counted x ≤ n) (hn : n + 1 < 2 ^ 64) : counted (SProc.tick x) ≤ n + 1 := by
  unfold counted at h ⊢
  unfold SProc.tick
  split
  · show x.sleep_ticks.toNat + (x.run_ticks + 1).toNat ≤ n + 1
    rw [UInt64.toNat_add, show (1 : UInt64).toNat = 1 from rfl]
    omega
  · show (x.sleep_ticks + 1).toNat + x.run_ticks.toNat ≤ n + 1
    rw [UInt64.toNat_add, show (1 : UInt64).toNat = 1 from rfl]
    omega
  · omega

/-- No process has counted more ticks than there were, in the first 2^64. -/
def Counted (s : Sys) : Prop := s.clock < 2 ^ 64 → ∀ p, counted (s.proc p) ≤ s.clock

theorem Counted.setProc (h : Counted s) {x : SProc} (hx : counted x ≤ counted (s.proc p) ∨ counted x = 0) :
    Counted (s.setProc p x) := by
  intro hclock q
  have hq := h hclock
  show counted (Function.update s.proc p x q) ≤ s.clock
  by_cases hqp : q = p
  · rw [hqp, Function.update_self]
    have := hq p
    omega
  · rw [Function.update_of_ne hqp]
    exact hq q

theorem Counted.move {old new : ProcState} (h : Counted s) (hrun : s.move p old new = .ok s') : Counted s' := by
  unfold Sys.move at hrun
  split at hrun
  · cases hrun
    exact h.setProc (.inl (Nat.le_refl _))
  · cases hrun

/-- **One step.** -/
theorem Counted.step {a : Step} (h : Counted s) (hrun : Pbs.step s a = .ok s') : Counted s' := by
  cases a with
  | tick =>
    cases hrun
    intro hclock p
    have hbefore : s.clock < 2 ^ 64 := Nat.lt_of_succ_lt hclock
    exact counted_tick (h hbefore p) hclock
  | set_priority priority p =>
    cases hrun
    exact h.setProc (.inr rfl)
  | schedule =>
    obtain ⟨_, -, hspec⟩ := priority_scheduler_spec s.proc idleCpu_holds
    obtain ⟨t', c', r, hsched, hserves⟩ : ∃ t' c' r, priority_scheduler s.proc idleCpu = .ok (t', c', r)
        ∧ Serves s.proc (fun _ _ => True) SProc.scheduled t' c' r :=
      serves_of_argmin hspec fun _ _ _ _ => trivial
    rw [Pbs.step, hsched] at hrun
    cases hrun
    cases r with
    | none =>
      rw [hserves.same rfl]
      exact h
    | some p =>
      obtain ⟨-, -, -, htable⟩ := hserves.chosen p rfl
      rw [htable]
      exact h.setProc (p := p) (.inr rfl)
  | fork p | wait p =>
    rw [Pbs.step] at hrun
    split at hrun
    · cases hrun
      exact h.setProc (.inr rfl)
    · cases hrun
  | yield p | sleep p | wakeup p | exit p => exact h.move hrun

theorem Reachable.counted (h : Reachable s) : Counted s := by
  refine Lib.Reach.invariant (I := Counted) ?_ (fun _ _ _ hinv _ hrun => hinv.step hrun) h
  rintro s rfl _ p
  show Pbs.counted (if p = initproc then SProc.fresh 0 else SProc.unused) ≤ 0
  split
  · exact Nat.le_refl 0
  · exact Nat.le_refl 0

end Counters

/-! ## §3. Niceness. -/

section Niceness

variable {x : SProc}

theorem sum_eq_counted (h : counted x < 2 ^ 64) : (x.sleep_ticks + x.run_ticks).toNat = counted x := by
  exact Nat.mod_eq_of_lt h

/-- The quotient is 1 for a process that has only slept, and 0 otherwise. -/
theorem ratio_eq (hc : counted x ≠ 0) (h : counted x < 2 ^ 64) :
    x.sleep_ticks / (x.sleep_ticks + x.run_ticks) = if x.run_ticks.toNat = 0 then 1 else 0 := by
  rw [← UInt64.toNat_inj, UInt64.toNat_div, sum_eq_counted h]
  unfold counted at hc ⊢
  split
  · rename_i hr
    rw [hr, Nat.add_zero]
    exact Nat.div_self (by omega)
  · exact Nat.div_eq_of_lt (by omega)

/-- **The niceness takes three values.** -/
theorem niceness_cases (h : counted x < 2 ^ 64) :
    (niceness x).toInt = if counted x = 0 then 5 else if x.run_ticks.toNat = 0 then 10 else 0 := by
  have hsum := sum_eq_counted h
  have hzero : x.sleep_ticks + x.run_ticks = 0 ↔ counted x = 0 := by
    rw [← hsum, ← UInt64.toNat_inj]
    rfl
  unfold niceness
  by_cases hc : counted x = 0
  · rw [if_pos (hzero.mpr hc), if_pos hc]
    rfl
  rw [if_neg (mt hzero.mp hc), if_neg hc]
  rw [ratio_eq hc h]
  split
  · rfl
  · rfl

/-- `clamp(a, 0, 100)` -/
def clamp (a : Int) : Int := max 0 (min a 100)

/-- A sum of `int`s that does not leave their range. -/
def fits (a : Int) : Prop := -2 ^ 31 ≤ a ∧ a < 2 ^ 31

/-- The multiplication, the subtraction and the addition of `dynamic_priority` do not overflow. -/
structure Computes (x : SProc) : Prop where
  mul : x.sleep_ticks + x.run_ticks ≠ 0 →
    fits ((x.sleep_ticks / (x.sleep_ticks + x.run_ticks)).toUInt32.toInt32.toInt * 10)
  sub : fits (x.static_priority.toInt - (niceness x).toInt)
  add : fits (x.static_priority.toInt - (niceness x).toInt + 5)

theorem bmod_of_fits {a : Int} (h : fits a) : a.bmod (2 ^ 32) = a := by
  unfold fits at h
  exact Int.bmod_eq_of_le (by omega) (by omega)

/-- **Without overflow** the priority is the one of the integers. -/
theorem dynamic_priority_eq (h : Computes x) :
    (dynamic_priority x).toInt = clamp (x.static_priority.toInt - (niceness x).toInt + 5) := by
  have hDP : (x.static_priority - niceness x + 5).toInt = x.static_priority.toInt - (niceness x).toInt + 5 := by
    rw [Int32.toInt_add, Int32.toInt_sub, bmod_of_fits h.sub]
    exact bmod_of_fits h.add
  unfold dynamic_priority clamp
  simp only [gt_iff_lt, Int32.lt_iff_toInt_lt]
  have h0 : (0 : Int32).toInt = 0 := rfl
  have h100 : (100 : Int32).toInt = 100 := rfl
  by_cases hbig : (100 : Int32).toInt < (x.static_priority - niceness x + 5).toInt
  · rw [if_pos hbig, if_neg (by decide)]
    omega
  rw [if_neg hbig]
  by_cases hneg : (x.static_priority - niceness x + 5).toInt < (0 : Int32).toInt
  · rw [if_pos hneg]
    omega
  · rw [if_neg hneg]
    omega

/-- The priorities that leave room for the niceness and the 5. -/
def Moderate (priority : Int32) : Prop := -2 ^ 31 + 10 ≤ priority.toInt ∧ priority.toInt < 2 ^ 31 - 5

/-- **Moderate priorities do not overflow.** -/
theorem Computes.of_moderate (h : counted x < 2 ^ 64) (hp : Moderate x.static_priority) : Computes x := by
  obtain ⟨hlo, hhi⟩ := hp
  have hnice := niceness_cases h
  refine ⟨fun hsum => ?_, ?_, ?_⟩
  · have hc : counted x ≠ 0 := by
      rw [← sum_eq_counted h]
      intro hzero
      exact hsum (UInt64.toNat_inj.mp hzero)
    rw [ratio_eq hc h]
    split
    · exact ⟨by decide, by decide⟩
    · exact ⟨by decide, by decide⟩
  · unfold fits
    omega
  · unfold fits
    omega

/-- **More sleep is never worse**: of two processes with the same static priority, the one that slept a larger share of
its time has the smaller number.  The shares are compared as fractions, multiplied out. -/
theorem dynamic_priority_anti {y : SProc} (hx : counted x < 2 ^ 64) (hy : counted y < 2 ^ 64)
    (hp : Moderate x.static_priority) (hstatic : y.static_priority = x.static_priority)
    (hxc : counted x ≠ 0) (hyc : counted y ≠ 0)
    (hshare : x.sleep_ticks.toNat * counted y ≤ y.sleep_ticks.toNat * counted x) :
    (dynamic_priority y).toInt ≤ (dynamic_priority x).toInt := by
  -- a process that has only slept has the largest share, and then the other has only slept too
  have hrun : x.run_ticks.toNat = 0 → y.run_ticks.toNat = 0 := by
    intro hr
    unfold counted at hshare hxc
    rw [hr, Nat.add_zero, Nat.mul_comm] at hshare
    rw [hr, Nat.add_zero] at hxc
    have hle := Nat.le_of_mul_le_mul_right hshare (Nat.pos_of_ne_zero hxc)
    omega
  have hnice : (niceness x).toInt ≤ (niceness y).toInt := by
    rw [niceness_cases hx, niceness_cases hy, if_neg hxc, if_neg hyc]
    split
    · rename_i hr
      rw [if_pos (hrun hr)]
    · split
      · decide
      · decide
  rw [dynamic_priority_eq (.of_moderate hx hp), dynamic_priority_eq (.of_moderate hy (hstatic ▸ hp)), hstatic]
  unfold clamp
  omega

end Niceness

/-! ## §4. The two claims of the documentation. -/

section Results

variable {s : Sys} {p : Slot}

/-- **The dynamic priority follows the share of time slept**, for a process that has not run, or has slept less than a
tenth of its time.  No process with the same static priority that slept a larger share of its time has a worse one. -/
theorem follows_ratio (h : Reachable s) (hclock : s.clock < 2 ^ 64)
    (hstatic : 0 ≤ (s.proc p).static_priority.toInt ∧ (s.proc p).static_priority.toInt ≤ 100)
    (hsome : 0 < (s.proc p).sleep_ticks.toNat + (s.proc p).run_ticks.toNat)
    (hratio : (s.proc p).run_ticks.toNat = 0 ∨ 9 * (s.proc p).sleep_ticks.toNat < (s.proc p).run_ticks.toNat) :
    (dynamic_priority (s.proc p)).toInt = clamp ((s.proc p).static_priority.toInt
      - ((10 * (s.proc p).sleep_ticks.toNat / ((s.proc p).sleep_ticks.toNat + (s.proc p).run_ticks.toNat) : Nat) : Int) + 5)
      ∧ ∀ (s' : Sys) (q : Slot), Reachable s' → s'.clock < 2 ^ 64 →
        (s'.proc q).static_priority = (s.proc p).static_priority →
        0 < (s'.proc q).sleep_ticks.toNat + (s'.proc q).run_ticks.toNat →
        (s.proc p).sleep_ticks.toNat * ((s'.proc q).sleep_ticks.toNat + (s'.proc q).run_ticks.toNat)
          ≤ (s'.proc q).sleep_ticks.toNat * ((s.proc p).sleep_ticks.toNat + (s.proc p).run_ticks.toNat) →
        (dynamic_priority (s'.proc q)).toInt ≤ (dynamic_priority (s.proc p)).toInt := by
  have hcount : counted (s.proc p) < 2 ^ 64 := Nat.lt_of_le_of_lt (h.counted hclock p) hclock
  have hmod : Moderate (s.proc p).static_priority := ⟨by omega, by omega⟩
  have hne : counted (s.proc p) ≠ 0 := Nat.ne_of_gt hsome
  have hten : 10 * (s.proc p).sleep_ticks.toNat / ((s.proc p).sleep_ticks.toNat + (s.proc p).run_ticks.toNat)
      = if (s.proc p).run_ticks.toNat = 0 then 10 else 0 := by
    split
    · rename_i hr
      rw [hr, Nat.add_zero]
      exact Nat.mul_div_cancel 10 (by omega)
    · exact Nat.div_eq_of_lt (by omega)
  refine ⟨?_, fun s' q h' hclock' hsame hsome' hshare => ?_⟩
  · rw [dynamic_priority_eq (.of_moderate hcount hmod), niceness_cases hcount, if_neg hne, hten]
    split
    · rfl
    · rfl
  · exact dynamic_priority_anti hcount (Nat.lt_of_le_of_lt (h'.counted hclock' q) hclock') hmod hsame hne
      (Nat.ne_of_gt hsome') hshare

/-- It runs for a tick and sleeps for another. -/
theorem halfAsleep : ∃ s, Reachable s ∧ decide (s.clock = 2 ∧ (s.proc initproc).sleep_ticks = 1
    ∧ (s.proc initproc).run_ticks = 1 ∧ (s.proc initproc).static_priority = 60) = true :=
  Lib.Reach.of_reaches [.schedule, .tick, .sleep initproc, .tick] _ rfl (by decide +kernel)

/-- **Half the time asleep**: the niceness is 0, not 5. -/
theorem ratio_lost : ∃ s, Reachable s ∧ (s.clock < 2 ^ 64 ∧ (s.proc initproc).static_priority = 60)
    ∧ 0 < (s.proc initproc).sleep_ticks.toNat + (s.proc initproc).run_ticks.toNat
    ∧ (dynamic_priority (s.proc initproc)).toInt ≠ clamp ((s.proc initproc).static_priority.toInt
      - ((10 * (s.proc initproc).sleep_ticks.toNat
          / ((s.proc initproc).sleep_ticks.toNat + (s.proc initproc).run_ticks.toNat) : Nat) : Int) + 5) := by
  obtain ⟨s, hs, htest⟩ := halfAsleep
  obtain ⟨hclock, hsleep, hrun, hstatic⟩ := of_decide_eq_true htest
  refine ⟨s, hs, ⟨by rw [hclock]; decide, hstatic⟩, by rw [hsleep, hrun]; decide, ?_⟩
  unfold dynamic_priority niceness
  rw [hsleep, hrun, hstatic]
  decide

/-- It runs for a tick. -/
theorem awake : ∃ s, Reachable s ∧ decide (s.clock = 1 ∧ (s.proc initproc).sleep_ticks = 0
    ∧ (s.proc initproc).run_ticks = 1 ∧ (s.proc initproc).static_priority = 60) = true :=
  Lib.Reach.of_reaches [.schedule, .tick] _ rfl (by decide +kernel)

theorem follows_ratio_awake : ∃ s, Reachable s ∧ s.clock < 2 ^ 64
    ∧ (0 ≤ (s.proc initproc).static_priority.toInt ∧ (s.proc initproc).static_priority.toInt ≤ 100)
    ∧ 0 < (s.proc initproc).sleep_ticks.toNat + (s.proc initproc).run_ticks.toNat
    ∧ (dynamic_priority (s.proc initproc)).toInt = clamp ((s.proc initproc).static_priority.toInt
      - ((10 * (s.proc initproc).sleep_ticks.toNat
          / ((s.proc initproc).sleep_ticks.toNat + (s.proc initproc).run_ticks.toNat) : Nat) : Int) + 5) := by
  obtain ⟨s, hs, htest⟩ := awake
  obtain ⟨hclock, hsleep, hrun, hstatic⟩ := of_decide_eq_true htest
  have hlt : s.clock < 2 ^ 64 := by rw [hclock]; decide
  have hst : 0 ≤ (s.proc initproc).static_priority.toInt ∧ (s.proc initproc).static_priority.toInt ≤ 100 := by
    rw [hstatic]
    decide
  have hsome : 0 < (s.proc initproc).sleep_ticks.toNat + (s.proc initproc).run_ticks.toNat := by
    rw [hsleep, hrun]
    decide
  exact ⟨s, hs, hlt, hst, hsome, (follows_ratio hs hlt hst hsome (.inr (by rw [hsleep, hrun]; decide))).1⟩

end Results

end Xv6.Pbs
