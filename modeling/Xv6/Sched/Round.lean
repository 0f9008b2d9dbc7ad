/-
  Xv6.Sched.Round — rounds of `mlfq_scheduler` with interrupts, and the runs
  of the MLFQ scheduler (`kernel/proc.c`, `clockintr` of `kernel/trap.c`).

  The scheduler runs with interrupts on, but for the stretches from an
  `acquire` to its `release`.  `Place` is where it is between them, and in a
  round clock interrupts and wakeups may come at every place.  Two of the
  places are not safe: a clock interrupt may empty the level that was found
  not to be empty, and it may move the process that `que_front` returned.

  Runs in which no queued slot is freed and no interrupt does so (`clean`)
  keep `Mlfq.Inv` (`run_inv`); `copyfail_breaks_membership` and
  `stale_entry_breaks_range` are runs that free a queued slot.
-/
import Xv6.Sched.Aging

namespace Xv6

namespace Mlfq

/-! ## §1. The round. -/

/-- Where `mlfq_scheduler` is. -/
inductive Place where
  | queue_switch (pc : Pc)
  /-- the loop that queues processes has the slots `ps` to visit -/
  | sweep (ps : List Slot)
  /-- the levels `qs` are to be searched -/
  | search (qs : List Nat)
  /-- `que_empty(&mlfqs[q])` has returned 0 -/
  | pop (q : Nat) (qs : List Nat)
  /-- `que_pop` has returned `p`; its lock is not held yet -/
  | popped (qs : List Nat) (p : Slot)
  /-- at `swtch` to the process found, or at the end -/
  | ended (found : Option Slot)
  deriving DecidableEq, Repr

/-- The start of `mlfq_scheduler`. -/
def Place.first : Place := .queue_switch (.loop 1)

/-- The queues and processes, and the place of the scheduler. -/
structure Round where
  m : Mlfq
  place : Place

/-- `p->qued_fl = 0` -/
def unflag (s : Mlfq) (p : Slot) : Mlfq := s.setProc p { s.proc p with qued_fl := false }

/-- The scheduler, up to the next point where interrupts are on. -/
def Round.sched (r : Round) : MlfqResult Round :=
  match r.place with
  | .queue_switch .done => .ok { r with place := .sweep (List.finRange NPROC) }
  | .queue_switch pc => do
      let a ← Aging.sched ⟨r.m, pc⟩
      .ok ⟨a.m, .queue_switch a.pc⟩
  | .sweep [] => .ok { r with place := .search [0, 1, 2, 3, 4] }
  | .sweep (p :: ps) => do
      let m ← r.m.enqueue p
      .ok ⟨m, .sweep ps⟩
  | .search [] => .ok { r with place := .ended none }
  | .search (q :: qs) =>
    if que_empty (r.m.mlfqs q) then .ok { r with place := .search qs } else .ok { r with place := .pop q qs }
  | .pop q qs =>
    match que_pop (r.m.mlfqs q) with
    | (_, none) => .error .null
    | (que, some p) => .ok ⟨r.m.setQue q que, .popped (q :: qs) p⟩
  | .popped qs p =>
    let m := r.m.unflag p
    if (m.proc p).state = .RUNNABLE then .ok ⟨m.setProc p { m.proc p with state := .RUNNING }, .ended (some p)⟩
    else .ok ⟨m, .search qs⟩
  | .ended _ => .error .disabled

/-- What happens in a round. -/
inductive RoundStep where
  | sched
  /-- a clock interrupt -/
  | clock
  /-- the interrupt of a device, which wakes processes up -/
  | wakeup (chan : Nat)
  deriving DecidableEq, Repr

/-- One step of a round. -/
def Round.step (r : Round) : RoundStep → MlfqResult Round
  | .sched => r.sched
  | .clock => do
      let m ← r.m.clockintr
      .ok { r with m := m }
  | .wakeup chan => .ok { r with m := r.m.wakeup chan }

/-- `mlfq_scheduler` up to its `swtch`, with interrupts. -/
def round (s : Mlfq) (is : List RoundStep) : MlfqResult Mlfq := do
  let r ← is.foldlM Round.step ⟨s, .first⟩
  match r.place with
  | .ended _ => .ok r.m
  | _ => .error .disabled

/-- The interrupt does not empty the level that the scheduler has found not to be empty, and does not move the process
that `queue_switch` holds on to. -/
def Round.calm (r : Round) : RoundStep → Prop
  | .clock =>
    match r.place with
    | .queue_switch pc => Aging.calm ⟨r.m, pc⟩ .clock
    | .pop q _ => r.m.lasting q
    | _ => True
  | _ => True

instance (r : Round) (i : RoundStep) : Decidable (r.calm i) := by
  unfold Round.calm
  split
  · split <;> infer_instance
  · infer_instance

/-- All interrupts of the round are calm. -/
def Round.calmAll : Round → List RoundStep → Bool
  | _, [] => true
  | r, i :: is => decide (r.calm i) && match r.step i with
    | .ok r' => calmAll r' is
    | .error _ => true

/-! ## §2. A flag that is still set. -/

section Unflag

variable (s : Mlfq) (p p' : Slot)

/-- Between `que_pop` and `acquire` the process is in no queue, and its flag is still set.  An interrupt looks at no flag,
so it does not matter whether the flag is cleared before it or after. -/
theorem unflag_proc : (s.unflag p).proc p' = if p' = p then { s.proc p' with qued_fl := false } else s.proc p' := by
  unfold unflag
  by_cases hp : p' = p
  · rw [if_pos hp, hp, setProc_proc_same]
  · rw [if_neg hp, setProc_proc_ne _ _ hp]

theorem unflag_state : ((s.unflag p).proc p').state = (s.proc p').state := by
  rw [unflag_proc]
  split <;> rfl

theorem unflag_aged : (s.unflag p).aged p' = s.aged p' := by
  unfold aged
  rw [unflag_proc]
  split <;> rfl

/-- A process changes, but for its flag. -/
theorem unflag_setProc (f : MProc → MProc)
    (hf : ∀ x, f { x with qued_fl := false } = { f x with qued_fl := false }) :
    (s.unflag p).setProc p' (f ((s.unflag p).proc p')) = (s.setProc p' (f (s.proc p'))).unflag p := by
  have hproc : ((s.unflag p).setProc p' (f ((s.unflag p).proc p'))).proc = ((s.setProc p' (f (s.proc p'))).unflag p).proc := by
    funext x
    rw [unflag_proc (s.setProc p' _)]
    by_cases hx : x = p'
    · rw [hx, setProc_proc_same, setProc_proc_same, unflag_proc]
      split
      · exact hf _
      · rfl
    · rw [setProc_proc_ne _ _ hx, setProc_proc_ne _ _ hx, unflag_proc]
  show (⟨_, _, _⟩ : Mlfq) = ⟨_, _, _⟩
  rw [Mlfq.mk.injEq]
  exact ⟨rfl, hproc, rfl⟩

theorem unflag_promote (q : Nat) : (s.unflag p).promote q p' = (s.promote q p').unflag p := by
  have hset := unflag_setProc (s.pop q) p p' (fun x => { x with curr_q := x.curr_q - 1, cq_rticks := 0 }) fun _ => rfl
  exact congrArg (fun s : Mlfq => s.push (q - 1) p') hset

theorem unflag_switchLevel (q k : Nat) : ∀ s : Mlfq, switchLevel q k (s.unflag p) = (switchLevel q k s).unflag p := by
  induction k with
  | zero => exact fun _ => rfl
  | succ k ih =>
    intro s
    have hques : (s.unflag p).mlfqs = s.mlfqs := rfl
    unfold switchLevel
    rw [hques]
    split
    · rfl
    rw [unflag_aged]
    split
    · rw [unflag_promote, ih]
    · rfl

theorem unflag_queue_switch : (s.unflag p).queue_switch = s.queue_switch.unflag p := by
  unfold queue_switch
  generalize [1, 2, 3, 4] = qs
  induction qs generalizing s with
  | nil => rfl
  | cons q qs ih =>
    rw [List.foldl_cons, List.foldl_cons, ← ih, ← unflag_switchLevel]
    rfl

theorem unflag_wakeup (chan : Nat) : (s.unflag p).wakeup chan = (s.wakeup chan).unflag p := by
  have hproc : ((s.unflag p).wakeup chan).proc = ((s.wakeup chan).unflag p).proc := by
    funext x
    rw [unflag_proc]
    unfold wakeup
    dsimp only
    rw [unflag_proc]
    by_cases hx : x = p
    · rw [if_pos hx, if_pos hx]
      dsimp only
      split <;> rfl
    · rw [if_neg hx, if_neg hx]
  show (⟨_, _, _⟩ : Mlfq) = ⟨_, _, _⟩
  rw [Mlfq.mk.injEq]
  exact ⟨rfl, hproc, rfl⟩

theorem unflag_tickOne {s₁ : Mlfq} (h : (s.unflag p).tickOne p' = .ok s₁) :
    ∃ s', s.tickOne p' = .ok s' ∧ s₁ = s'.unflag p := by
  unfold tickOne at h ⊢
  have hcq : ((s.unflag p).proc p').curr_q = (s.proc p').curr_q := by
    rw [unflag_proc]
    split <;> rfl
  rw [unflag_state, hcq] at h
  split
  · rename_i hrun
    rw [if_pos hrun] at h
    split
    · rename_i hnone
      rw [hnone] at h
      cases h
    · rename_i q hq
      rw [hq] at h
      cases h
      exact ⟨_, rfl, unflag_setProc s p p' (fun x => { x with
        cq_rticks := x.cq_rticks + 1, q_ticks := Function.update x.q_ticks q (x.q_ticks q + 1) }) fun _ => rfl⟩
  · rename_i hrun
    rw [if_neg hrun] at h
    cases h
    exact ⟨s, rfl, rfl⟩

theorem unflag_ticks (ps : List Slot) : ∀ {s s₁ : Mlfq}, ps.foldlM tickOne (s.unflag p) = .ok s₁ →
    ∃ s', ps.foldlM tickOne s = .ok s' ∧ s₁ = s'.unflag p := by
  induction ps with
  | nil =>
    intro s s₁ h
    cases h
    exact ⟨s, rfl, rfl⟩
  | cons p' ps ih =>
    intro s s₁ h
    rw [List.foldlM_cons] at h
    obtain ⟨s₂, hone, hrest⟩ := Lib.bind_ok h
    obtain ⟨s₃, hone', rfl⟩ := unflag_tickOne s p p' hone
    obtain ⟨s', hrest', heq⟩ := ih hrest
    exact ⟨s', by rw [List.foldlM_cons, hone']; exact hrest', heq⟩

theorem unflag_clockintr {s₁ : Mlfq} (h : (s.unflag p).clockintr = .ok s₁) :
    ∃ s', s.clockintr = .ok s' ∧ s₁ = s'.unflag p := by
  unfold clockintr at h ⊢
  obtain ⟨s₂, hticks, hend⟩ := Lib.bind_ok h
  obtain ⟨s₃, hticks', rfl⟩ := @unflag_ticks p _ { s with ticks := s.ticks + 1 } _ hticks
  cases hend
  rw [unflag_queue_switch, unflag_wakeup]
  exact ⟨_, by rw [hticks']; rfl, rfl⟩

end Unflag

/-! ## §3. A round keeps the invariant. -/

variable {s : Mlfq} {p : Slot} {q : Nat}

theorem Inv.sound (h : s.Inv) : s.Sound := ⟨h.ok, h.once⟩

theorem Inv.promote (h : s.Inv) (hq : q < MLFQ_LEVELS) (hpos : 0 < q) (hfront : que_front (s.mlfqs q) = some p) :
    (s.promote q p).Inv := by
  refine ⟨h.toPlaced.promote hq hpos hfront, fun p' hst => ?_⟩
  have hsame := sameFlags_promote s q p p'
  rw [hsame.1] at hst
  rw [hsame.2]
  exact h.idle p' hst

/-- The scheduler in `queue_switch`. -/
theorem Inv.aging {pc : Pc} (h : s.Inv) (hfront : Aging.Front ⟨s, pc⟩) (hpc : pc ≠ .done) :
    ∃ a, Aging.sched ⟨s, pc⟩ = .ok a ∧ a.m.Inv ∧ a.Front := by
  have hinv : Aging.Inv s ⟨s, pc⟩ := ⟨h.sound, List.Perm.refl _, hfront⟩
  have hok : ∃ a, Aging.sched ⟨s, pc⟩ = .ok a ∧ a.m.Inv := by
    cases pc with
    | done => exact absurd rfl hpc
    | loop q =>
      unfold Aging.sched
      dsimp only
      split
      · exact ⟨_, rfl, h⟩
      · exact ⟨_, rfl, h⟩
    | front q =>
      obtain ⟨p, hp⟩ := Option.ne_none_iff_exists'.mp (front_ne_null hfront.2.2)
      exact ⟨⟨s, .got q p⟩, by unfold Aging.sched; dsimp only; rw [hp], h⟩
    | got q p =>
      obtain ⟨hpos, hq, hhead⟩ := hfront
      unfold Aging.sched
      dsimp only
      split
      · exact ⟨_, rfl, h.promote hq hpos ((que_front_eq (h.ok q hq)).trans hhead)⟩
      · exact ⟨_, rfl, h⟩
  obtain ⟨a, hrun, ha⟩ := hok
  exact ⟨a, hrun, ha, (hinv.sched hrun).front⟩

/-- The invariant of a round. -/
def Round.Inv (r : Round) : Prop :=
  match r.place with
  | .queue_switch pc => r.m.Inv ∧ Aging.Front ⟨r.m, pc⟩
  | .sweep _ => r.m.Inv
  | .search qs => r.m.Inv ∧ ∀ q ∈ qs, q < MLFQ_LEVELS
  | .pop q qs => r.m.Inv ∧ (∀ q' ∈ q :: qs, q' < MLFQ_LEVELS) ∧ (r.m.mlfqs q).entries ≠ []
  | .popped qs p => (r.m.unflag p).Inv ∧ ∀ q ∈ qs, q < MLFQ_LEVELS
  | .ended _ => r.m.Inv

theorem Round.Inv.sched {r : Round} (h : r.Inv) : r.sched = .error .disabled ∨ ∃ r', r.sched = .ok r' ∧ r'.Inv := by
  obtain ⟨m, place⟩ := r
  cases place with
  | queue_switch pc =>
    obtain ⟨hm, hfront⟩ := h
    by_cases hpc : pc = .done
    · rw [hpc]
      exact .inr ⟨_, rfl, hm⟩
    · obtain ⟨a, hrun, ha, hfront'⟩ := hm.aging hfront hpc
      refine .inr ⟨⟨a.m, .queue_switch a.pc⟩, ?_, ha, hfront'⟩
      cases pc with
      | done => exact absurd rfl hpc
      | loop q | front q | got q p =>
        unfold Round.sched
        dsimp only
        rw [hrun]
        rfl
  | sweep ps =>
    cases ps with
    | nil => exact .inr ⟨_, rfl, h, by decide⟩
    | cons p ps =>
      obtain ⟨m', hrun, hm'⟩ := Mlfq.Inv.enqueue h p
      refine .inr ⟨⟨m', .sweep ps⟩, ?_, hm'⟩
      unfold Round.sched
      dsimp only
      rw [hrun]
      rfl
  | search qs =>
    obtain ⟨hm, hqs⟩ := h
    cases qs with
    | nil => exact .inr ⟨_, rfl, hm⟩
    | cons q qs =>
      right
      unfold Round.sched
      dsimp only
      split
      · exact ⟨_, rfl, hm, fun q' hq' => hqs q' (List.mem_cons_of_mem q hq')⟩
      · rename_i hne
        refine ⟨_, rfl, hm, hqs, fun hnil => hne ?_⟩
        rw [que_empty, beq_iff_eq, ← Que.entries_length, hnil, List.length_nil]
  | pop q qs =>
    obtain ⟨hm, hqs, hne⟩ := h
    obtain ⟨-, -, hfront⟩ := que_pop_entries (hm.ok q (hqs q List.mem_cons_self))
    right
    unfold Round.sched
    dsimp only
    split
    · rename_i que hpop
      rw [hpop] at hfront
      exact absurd (List.head?_eq_none_iff.mp hfront.symm) hne
    · rename_i que p hpop
      rw [hpop] at hfront
      refine ⟨_, rfl, ?_, hqs⟩
      have htake := hm.take (hqs q List.mem_cons_self) hfront.symm (x := { m.proc p with qued_fl := false }) rfl (hm.range p)
      rw [Mlfq.pop, hpop] at htake
      exact htake
  | popped qs p =>
    obtain ⟨hm, hqs⟩ := h
    have hfl : ((m.unflag p).proc p).qued_fl = false := by rw [unflag_proc, if_pos rfl]
    right
    unfold Round.sched
    dsimp only
    split
    · exact ⟨_, rfl, hm.setProc rfl (fun _ => rfl) (hm.range p) fun _ => hfl⟩
    · exact ⟨_, rfl, hm, hqs⟩
  | ended found => exact .inl rfl

theorem Round.step_clock {m m' : Mlfq} {place : Place} (h : m.clockintr = .ok m') :
    Round.step ⟨m, place⟩ .clock = .ok ⟨m', place⟩ := by
  unfold Round.step
  dsimp only
  rw [h]
  rfl

theorem Round.Inv.clock {r : Round} (h : r.Inv) (hcalm : r.calm .clock) : ∃ r', r.step .clock = .ok r' ∧ r'.Inv := by
  obtain ⟨m, place⟩ := r
  -- beside the invariant, what the scheduler has seen of the queues must last
  have hclock : m.Inv → ∃ m', m.clockintr = .ok m' ∧ m'.Inv ∧ (∀ q p, q < MLFQ_LEVELS → (m.mlfqs q).entries.head? = some p →
      aged { m with ticks := m.ticks + 1 } p = false → (m'.mlfqs q).entries.head? = some p)
      ∧ ∀ q, q < MLFQ_LEVELS → m.lasting q → (m'.mlfqs q).entries ≠ [] := by
    intro hm
    obtain ⟨m', hrun, hm'⟩ := hm.clockintr
    obtain ⟨-, -, hkeep, hlast⟩ := clockintr_kept hm.sound hrun
    exact ⟨m', hrun, hm', hkeep, hlast⟩
  cases place with
  | queue_switch pc =>
    obtain ⟨hm, hfront⟩ := h
    obtain ⟨m', hrun, hm', hkeep, hlast⟩ := hclock hm
    refine ⟨_, Round.step_clock hrun, hm', ?_⟩
    cases pc with
    | loop q | done => exact hfront
    | front q => exact ⟨hfront.1, hfront.2.1, hlast q hfront.2.1 hcalm⟩
    | got q p => exact ⟨hfront.1, hfront.2.1, hkeep q p hfront.2.1 hfront.2.2 hcalm⟩
  | sweep ps | ended found =>
    obtain ⟨m', hrun, hm', -⟩ := hclock h
    exact ⟨_, Round.step_clock hrun, hm'⟩
  | search qs =>
    obtain ⟨m', hrun, hm', -⟩ := hclock h.1
    exact ⟨_, Round.step_clock hrun, hm', h.2⟩
  | pop q qs =>
    obtain ⟨hm, hqs, hne⟩ := h
    obtain ⟨m', hrun, hm', -, hlast⟩ := hclock hm
    refine ⟨_, Round.step_clock hrun, hm', hqs, ?_⟩
    exact hlast q (hqs q List.mem_cons_self) hcalm
  | popped qs p =>
    obtain ⟨hm, hqs⟩ := h
    obtain ⟨m₁, hrun, hm₁⟩ := hm.clockintr
    obtain ⟨m', hrun', rfl⟩ := unflag_clockintr m p hrun
    exact ⟨_, Round.step_clock hrun', hm₁, hqs⟩

theorem Round.Inv.wakeup {r : Round} (h : r.Inv) (chan : Nat) : Round.Inv { r with m := r.m.wakeup chan } := by
  obtain ⟨m, place⟩ := r
  cases place with
  | queue_switch pc =>
    refine ⟨h.1.wakeup chan, ?_⟩
    cases pc with
    | loop q | front q | got q p | done => exact h.2
  | sweep ps | ended found => exact Mlfq.Inv.wakeup h chan
  | search qs | pop q qs => exact ⟨h.1.wakeup chan, h.2⟩
  | popped qs p =>
    refine ⟨?_, h.2⟩
    rw [← unflag_wakeup]
    exact h.1.wakeup chan

/-- **A step of a round** keeps the invariant. -/
theorem Round.Inv.step {r : Round} (h : r.Inv) (i : RoundStep) (hcalm : r.calm i) :
    r.step i = .error .disabled ∨ ∃ r', r.step i = .ok r' ∧ r'.Inv := by
  cases i with
  | sched => exact h.sched
  | clock => exact .inr (h.clock hcalm)
  | wakeup chan => exact .inr ⟨_, rfl, h.wakeup chan⟩

theorem Round.Inv.run (is : List RoundStep) : ∀ {r : Round}, r.Inv → r.calmAll is = true →
    is.foldlM Round.step r = .error .disabled ∨ ∃ r', is.foldlM Round.step r = .ok r' ∧ r'.Inv := by
  induction is with
  | nil => exact fun h _ => .inr ⟨_, rfl, h⟩
  | cons i is ih =>
    intro r h hcalm
    rw [Round.calmAll, Bool.and_eq_true] at hcalm
    rw [List.foldlM_cons]
    rcases h.step i (of_decide_eq_true hcalm.1) with herr | ⟨r', hrun, h'⟩
    · rw [herr]
      exact .inl rfl
    · have hrest := hcalm.2
      rw [hrun] at hrest ⊢
      exact ih h' hrest

/-- **A round** with calm interrupts keeps the invariant. -/
theorem Inv.round (h : s.Inv) {is : List RoundStep} (hcalm : Round.calmAll ⟨s, .first⟩ is = true) :
    s.round is = .error .disabled ∨ ∃ s', s.round is = .ok s' ∧ s'.Inv := by
  have hstart : Round.Inv ⟨s, .first⟩ := ⟨h, by decide, by decide⟩
  unfold Mlfq.round
  rcases hstart.run is hcalm with herr | ⟨r, hrun, hr⟩
  · rw [herr]
    exact .inl rfl
  · obtain ⟨m, place⟩ := r
    rw [hrun]
    cases place with
    | ended found => exact .inr ⟨m, rfl, hr⟩
    | queue_switch pc | sweep ps | search qs | pop q qs | popped qs p => exact .inl rfl

/-! ## §4. Runs. -/

/-- A step, or a round with interrupts (`Step.dispatch` is one without). -/
inductive Event where
  | step (a : Step)
  | round (is : List RoundStep)
  deriving DecidableEq, Repr

/-- What an event does. -/
def event (s : Mlfq) : Event → MlfqResult Mlfq
  | .step a => s.step a
  | .round is => s.round is

/-- No queued slot is freed, and the interrupts of a round are calm. -/
def clean (s : Mlfq) : Event → Prop
  | .step a => s.freesUnqueued a
  | .round is => Round.calmAll ⟨s, .first⟩ is = true

instance (s : Mlfq) (e : Event) : Decidable (s.clean e) := by
  unfold clean
  split <;> infer_instance

/-- **One event** keeps the invariant, and fails only by not being enabled. -/
theorem Inv.event (h : s.Inv) (e : Event) (hok : s.clean e) :
    s.event e = .error .disabled ∨ ∃ s', s.event e = .ok s' ∧ s'.Inv := by
  cases e with
  | step a => exact h.step a hok
  | round is => exact h.round hok

/-- The states of all runs. -/
abbrev AnyRun (s : Mlfq) : Prop := Lib.Reach (· = boot) (fun _ _ => True) event s

/-- A round in which a tick comes while `queue_switch` is at level 2, and one between `que_empty` and `que_pop` of level 0. -/
def interrupted : List RoundStep :=
  [.sched, .clock] ++ List.replicate 70 .sched ++ [.clock, .sched, .sched]

end Mlfq

end Xv6
