/-
  Xv6.Proc.Times — the times that `waitx` reports (`waitx`, `update_ticks`,
  `allocproc`, `exit` of `kernel/proc.c`, `clockintr` of `kernel/trap.c`).

  A clock interrupt increments `ticks` and then visits the slots one at a
  time under `p->lock`; the other CPUs go on in between.  `pending` are the
  slots that are still to be visited.  A slot that is pending will be charged
  a tick that has already been counted, so the process in it must be older
  than the tick:

      born + ran + (1 if pending) ≤ now        (`Fair`)

  `allocproc` does not know of the sweep.  A process that it makes in a
  pending slot is charged a tick from before it was there (`born_in_sweep`).
-/
import Xv6.Proc.State
import Xv6.Lib.Runs

namespace Xv6.Times

/-! ## §1. The system. -/

/-- The times of a process; `ran`, `born` and `died` are the same times without wrapping. -/
structure TProc where
  state : ProcState
  rtime : UInt32
  ctime : UInt32
  etime : UInt32
  ran : Nat
  born : Nat
  died : Nat

/-- The counters of the processes, and true time. -/
structure Sys where
  proc : Slot → TProc
  /-- clock interrupts so far; `ticks` is their number modulo 2^32 -/
  now : Nat
  /-- the slots that the `update_ticks` in progress has yet to visit -/
  pending : List Slot

/-- `ticks` -/
def Sys.ticks (s : Sys) : UInt32 := .ofNat s.now

/-- The counters of a process change. -/
def Sys.setProc (s : Sys) (p : Slot) (x : TProc) : Sys := { s with proc := Function.update s.proc p x }

/-- One turn of the loop of `update_ticks`. -/
def TProc.tick (x : TProc) : TProc :=
  if x.state = .RUNNING then { x with rtime := x.rtime + 1, ran := x.ran + 1 } else x

/-- The times that `allocproc` sets. -/
def Sys.fresh (s : Sys) : TProc := ⟨.USED, 0, s.ticks, 0, 0, s.now, 0⟩

/-- `p->state = ZOMBIE; p->etime = ticks` -/
def Sys.exited (s : Sys) (x : TProc) : TProc := { x with state := .ZOMBIE, etime := s.ticks, died := s.now }

/-- `*wtime` of `waitx` -/
def TProc.wtime (x : TProc) : UInt32 := x.etime - x.ctime - x.rtime

/-- What the counters depend on. -/
inductive Step where
  /-- `ticks++` of `clockintr`, and the start of `update_ticks` -/
  | tick
  /-- the next turn of `update_ticks` -/
  | visit
  | allocproc (p : Slot)
  /-- the end of `fork` -/
  | ready (p : Slot)
  /-- a scheduler, on any CPU -/
  | dispatch (p : Slot)
  | yield (p : Slot)
  | sleep (p : Slot)
  /-- `wakeup` and `kill` -/
  | wakeup (p : Slot)
  | exit (p : Slot)
  /-- `freeproc`, by `wait` or by a `fork` that fails -/
  | freeproc (p : Slot)
  deriving DecidableEq, Repr

/-- A process goes from one state to another. -/
def Sys.move (s : Sys) (p : Slot) (old new : ProcState) : Except StepFault Sys :=
  if (s.proc p).state = old then .ok (s.setProc p { s.proc p with state := new }) else .error .disabled

/-- What a step does. -/
def step (s : Sys) : Step → Except StepFault Sys
  | .tick =>
    -- only one CPU takes clock interrupts
    if s.pending = [] then .ok { s with now := s.now + 1, pending := List.finRange NPROC } else .error .disabled
  | .visit =>
    match s.pending with
    | [] => .error .disabled
    | p :: ps => .ok { s.setProc p (s.proc p).tick with pending := ps }
  | .allocproc p => if (s.proc p).state = .UNUSED then .ok (s.setProc p s.fresh) else .error .disabled
  | .ready p => s.move p .USED .RUNNABLE
  | .dispatch p => s.move p .RUNNABLE .RUNNING
  | .yield p => s.move p .RUNNING .RUNNABLE
  | .sleep p => s.move p .RUNNING .SLEEPING
  | .wakeup p => s.move p .SLEEPING .RUNNABLE
  | .exit p => if (s.proc p).state = .RUNNING then .ok (s.setProc p (s.exited (s.proc p))) else .error .disabled
  | .freeproc p =>
    if (s.proc p).state = .ZOMBIE ∨ (s.proc p).state = .USED then
      .ok (s.setProc p { s.proc p with state := .UNUSED })
    else .error .disabled

/-- After `userinit`. -/
def boot : Sys :=
  ⟨fun p => ⟨if p = initproc then .RUNNABLE else .UNUSED, 0, 0, 0, 0, 0, 0⟩, 0, []⟩

/-- `allocproc` does not take a slot that a sweep in progress has yet to visit. -/
def settled (s : Sys) : Step → Prop
  | .allocproc p => p ∉ s.pending
  | _ => True

instance (s : Sys) (a : Step) : Decidable (settled s a) := by
  unfold settled
  split <;> infer_instance

/-- The states of runs without such a slot. -/
abbrev Reachable (s : Sys) : Prop := Lib.Reach (· = boot) settled step s

/-- The states of all runs. -/
abbrev AnyRun (s : Sys) : Prop := Lib.Reach (· = boot) (fun _ _ => True) step s

/-! ## §2. The invariant. -/

/-- The process has run for no more ticks than there have been since it was made, the one that it may yet be charged
included. -/
structure Fair (now : Nat) (pending : Bool) (x : TProc) : Prop where
  rtime : x.rtime = .ofNat x.ran
  ctime : x.ctime = .ofNat x.born
  etime : x.state = .ZOMBIE → x.etime = .ofNat x.died ∧ x.born + x.ran ≤ x.died
  time : x.state ≠ .ZOMBIE → x.born + x.ran + pending.toNat ≤ now

/-- Every slot with a process is fair. -/
structure Inv (s : Sys) : Prop where
  nodup : s.pending.Nodup
  fair : ∀ p, (s.proc p).state ≠ .UNUSED → Fair s.now (p ∈ s.pending) (s.proc p)

variable {s s' : Sys} {p : Slot} {x : TProc}

/-- One slot changes. -/
theorem Inv.setProc (h : Inv s) (hx : x.state ≠ .UNUSED → Fair s.now (p ∈ s.pending) x) : Inv (s.setProc p x) := by
  refine ⟨h.nodup, fun q hq => ?_⟩
  have hproc : (s.setProc p x).proc q = if q = p then x else s.proc q := Function.update_apply ..
  rw [hproc] at hq ⊢
  split
  · rename_i hqp
    rw [if_pos hqp] at hq
    rw [hqp]
    exact hx hq
  · rename_i hqp
    rw [if_neg hqp] at hq
    exact h.fair q hq

/-- A process that has not exited goes on in another state. -/
theorem Fair.go_on {now : Nat} {pending : Bool} {st : ProcState} (h : Fair now pending x) (hbefore : x.state ≠ .ZOMBIE)
    (hafter : st ≠ .ZOMBIE) : Fair now pending { x with state := st } :=
  ⟨h.rtime, h.ctime, fun hz => absurd hz hafter, fun _ => h.time hbefore⟩

theorem Inv.move {old new : ProcState} (h : Inv s) (hold : old ≠ .UNUSED ∧ old ≠ .ZOMBIE) (hnew : new ≠ .ZOMBIE)
    (hrun : s.move p old new = .ok s') : Inv s' := by
  obtain ⟨hst, rfl⟩ := Lib.guard_ok hrun
  have hfair := h.fair p (by rw [hst]; exact hold.1)
  exact h.setProc fun _ => hfair.go_on (by rw [hst]; exact hold.2) hnew

/-- **The tick**: every slot becomes pending, and every process a tick older. -/
theorem Inv.tick (h : Inv s) : Inv { s with now := s.now + 1, pending := List.finRange NPROC } := by
  refine ⟨List.nodup_finRange NPROC, fun p hp => ?_⟩
  have hfair := h.fair p hp
  refine ⟨hfair.rtime, hfair.ctime, hfair.etime, fun hz => ?_⟩
  have htime := hfair.time hz
  have hle := Bool.toNat_le (decide (p ∈ List.finRange NPROC))
  show (s.proc p).born + (s.proc p).ran + (decide (p ∈ List.finRange NPROC)).toNat ≤ s.now + 1
  omega

theorem TProc.tick_state (x : TProc) : x.tick.state = x.state := by
  unfold TProc.tick
  split
  · rfl
  · rfl

/-- The process that is visited gets the tick that it was owed. -/
theorem Fair.tick {now : Nat} (h : Fair now true x) : Fair now false x.tick := by
  unfold TProc.tick
  split
  · rename_i hst
    have hz : x.state ≠ .ZOMBIE := by
      rw [hst]
      exact fun hz => nomatch hz
    have htime := h.time hz
    refine ⟨?_, h.ctime, fun hzombie => absurd hzombie hz, fun _ => ?_⟩
    · show x.rtime + 1 = .ofNat (x.ran + 1)
      rw [h.rtime]
      exact (UInt32.ofNat_add _ _).symm
    · show x.born + (x.ran + 1) + 0 ≤ now
      rw [Bool.toNat_true] at htime
      omega
  · refine ⟨h.rtime, h.ctime, h.etime, fun hz => ?_⟩
    have htime := h.time hz
    rw [Bool.toNat_false]
    omega

/-- **A visit.** -/
theorem Inv.visit {ps : List Slot} (h : Inv s) (hp : s.pending = p :: ps) : Inv { s.setProc p (s.proc p).tick with pending := ps } := by
  have hnodup := h.nodup
  rw [hp] at hnodup
  obtain ⟨hnot, hrest⟩ := List.nodup_cons.mp hnodup
  refine ⟨hrest, fun q hq => ?_⟩
  have hproc : (s.setProc p (s.proc p).tick).proc q = if q = p then (s.proc p).tick else s.proc q := Function.update_apply ..
  have hfair := h.fair q
  rw [hp] at hfair
  show Fair s.now (decide (q ∈ ps)) ((s.setProc p (s.proc p).tick).proc q)
  rw [hproc] at hq ⊢
  by_cases hqp : q = p
  · subst hqp
    rw [if_pos rfl, TProc.tick_state] at hq
    rw [if_pos rfl, decide_eq_false hnot]
    have hbefore := hfair hq
    rw [decide_eq_true List.mem_cons_self] at hbefore
    exact hbefore.tick
  · rw [if_neg hqp] at hq ⊢
    have hsame : decide (q ∈ p :: ps) = decide (q ∈ ps) := decide_eq_decide.mpr (by rw [List.mem_cons, or_iff_right hqp])
    rw [← hsame]
    exact hfair hq

/-- **One step.** -/
theorem Inv.step {a : Step} (h : Inv s) (hok : settled s a) (hrun : Times.step s a = .ok s') : Inv s' := by
  cases a with
  | tick =>
    obtain ⟨-, rfl⟩ := Lib.guard_ok hrun
    exact h.tick
  | visit =>
    rw [Times.step] at hrun
    split at hrun
    · cases hrun
    · rename_i p ps hp
      cases hrun
      exact h.visit hp
  | allocproc p =>
    obtain ⟨-, rfl⟩ := Lib.guard_ok hrun
    refine h.setProc fun _ => ⟨rfl, rfl, fun hz => (nomatch hz), fun _ => ?_⟩
    -- the slot is not owed a tick
    rw [decide_eq_false hok]
    exact le_rfl
  | ready p | dispatch p | yield p | sleep p | wakeup p => exact h.move ⟨by decide, by decide⟩ (by decide) hrun
  | exit p =>
    obtain ⟨hst, rfl⟩ := Lib.guard_ok hrun
    have hfair := h.fair p (by rw [hst]; decide)
    have htime := hfair.time (by rw [hst]; decide)
    refine h.setProc fun _ => ⟨hfair.rtime, hfair.ctime, fun _ => ⟨rfl, ?_⟩, fun hz => absurd rfl hz⟩
    exact (Nat.le_add_right _ _).trans htime
  | freeproc p =>
    obtain ⟨-, rfl⟩ := Lib.guard_ok hrun
    exact h.setProc fun hun => absurd rfl hun

theorem boot_inv : Inv boot := by
  refine ⟨List.nodup_nil, fun p hp => ⟨rfl, rfl, fun hz => ?_, fun _ => le_rfl⟩⟩
  exfalso
  revert hz
  show (if p = initproc then ProcState.RUNNABLE else .UNUSED) = .ZOMBIE → False
  split
  · exact fun hz => nomatch hz
  · exact fun hz => nomatch hz

theorem Reachable.inv (h : Reachable s) : Inv s :=
  h.invariant (fun _ hs => hs ▸ boot_inv) fun _ _ _ hinv hok hrun => hinv.step hok hrun

/-! ## §3. The times of an exited process. -/

/-- Times of the same 2^32 ticks. -/
theorem toNat_sub_ofNat {a b : Nat} (hle : b ≤ a) (hlt : a - b < 2 ^ 32) : (UInt32.ofNat a - UInt32.ofNat b).toNat = a - b := by
  rw [UInt32.toNat_sub, UInt32.toNat_ofNat', UInt32.toNat_ofNat']
  omega

/-- **The times add up**: in every run in which no process is made in a slot that the sweep has yet to visit, a process that
has exited after fewer than 2^32 ticks has run for no longer than it was there, and `waitx` reports the rest. -/
theorem times_add_up (h : Reachable s) (hz : (s.proc p).state = .ZOMBIE) (hlife : (s.proc p).died - (s.proc p).born < 2 ^ 32) :
    (s.proc p).rtime ≤ (s.proc p).etime - (s.proc p).ctime
      ∧ (s.proc p).rtime.toNat + (s.proc p).wtime.toNat = (s.proc p).died - (s.proc p).born := by
  have hfair := h.inv.fair p (by rw [hz]; decide)
  obtain ⟨hetime, hran⟩ := hfair.etime hz
  have hspan : ((s.proc p).etime - (s.proc p).ctime).toNat = (s.proc p).died - (s.proc p).born := by
    rw [hetime, hfair.ctime]
    exact toNat_sub_ofNat (by omega) hlife
  have hrtime : (s.proc p).rtime.toNat = (s.proc p).ran := by
    rw [hfair.rtime, UInt32.toNat_ofNat']
    omega
  have hle : (s.proc p).rtime ≤ (s.proc p).etime - (s.proc p).ctime := by
    rw [UInt32.le_iff_toNat_le, hspan, hrtime]
    omega
  refine ⟨hle, ?_⟩
  unfold TProc.wtime
  rw [UInt32.toNat_sub_of_le _ _ hle, hspan, hrtime]
  omega

/-! ## §4. A process that is made during a sweep. -/

/-- A child is made after the sweep, runs through a tick and exits. -/
def afterSweep : List Step :=
  [.dispatch initproc, .tick] ++ List.replicate NPROC .visit ++ [.allocproc 1, .ready 1, .dispatch 1, .tick]
    ++ List.replicate NPROC .visit ++ [.exit 1]

theorem times_add_up_afterSweep : ∃ s, Reachable s ∧ (s.proc 1).state = .ZOMBIE ∧ (s.proc 1).rtime.toNat + (s.proc 1).wtime.toNat = 1 := by
  have hreach : ∃ s, Reachable s ∧ decide ((s.proc 1).state = .ZOMBIE ∧ (s.proc 1).died = 2 ∧ (s.proc 1).born = 1) = true :=
    Lib.Reach.of_reaches afterSweep _ rfl (by decide +kernel)
  obtain ⟨s, hs, htest⟩ := hreach
  obtain ⟨hz, hdied, hborn⟩ := of_decide_eq_true htest
  have hlife : (s.proc 1).died - (s.proc 1).born = 1 := by rw [hdied, hborn]
  obtain ⟨-, hsum⟩ := times_add_up hs hz (by rw [hlife]; decide)
  exact ⟨s, hs, hz, hsum.trans hlife⟩

/-- The first process forks on another CPU between `ticks++` and the visit to the slot of the child. -/
def duringSweep : List Step :=
  [.dispatch initproc, .tick, .allocproc 1, .ready 1, .dispatch 1, .visit, .visit, .exit 1]

/-- **Made in a pending slot**: the child has run for a tick and lived for none; its waiting time wraps. -/
theorem born_in_sweep : ∃ s, AnyRun s ∧ (s.proc 1).state = .ZOMBIE ∧ (s.proc 1).rtime = 1
    ∧ (s.proc 1).etime - (s.proc 1).ctime = 0 ∧ (s.proc 1).wtime = 4294967295 := by
  have hreach : ∃ s, AnyRun s ∧ decide ((s.proc 1).state = .ZOMBIE ∧ (s.proc 1).rtime = 1
      ∧ (s.proc 1).etime - (s.proc 1).ctime = 0 ∧ (s.proc 1).wtime = 4294967295) = true :=
    Lib.Reach.of_reaches duringSweep _ rfl (by decide +kernel)
  obtain ⟨s, hs, htest⟩ := hreach
  exact ⟨s, hs, of_decide_eq_true htest⟩

end Xv6.Times
