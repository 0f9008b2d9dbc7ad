/-
  Xv6.Sched.MlfqEffect — what a scheduling round and a clock interrupt do to
  each process (`mlfq_scheduler`, `queue_switch`, `update_ticks` of
  `kernel/proc.c`, `clockintr` of `kernel/trap.c`).

  No assumption is made on the queues: the entries may be stale or double.

    * `Switched`  — `queue_switch`: aged processes go up,
    * `Cleared`   — the search for a process to run,
    * `Scheduled` — a whole round (`schedule_effect`),
    * `Ticked`    — a clock interrupt (`clockintr_effect`).
-/
import Xv6.Sched.QueueSwitch

namespace Xv6

/-- After one or more promotions. -/
def MProc.LiftedTo (x x' : MProc) : Prop :=
  x'.curr_q < x.curr_q ∧ x' = { x with curr_q := x'.curr_q, cq_rticks := 0 }

/-- What re-queueing makes of a process. -/
def MProc.stamped (x : MProc) (ticks : UInt32) : MProc :=
  { x with q_enter_time := ticks.toUInt64, cq_rticks := 0, qued_fl := true }

namespace Mlfq

variable {s s₁ s₂ s' : Mlfq} {p : Slot} {q : Nat}

/-! ## §1. Aging. -/

/-- A process stays as it is, or has aged and goes up. -/
structure Switched (s s' : Mlfq) : Prop where
  ticks : s'.ticks = s.ticks
  proc : ∀ p, s'.proc p = s.proc p ∨ (s.aged p = true ∧ (s.proc p).LiftedTo (s'.proc p))

theorem Switched.refl (s : Mlfq) : Switched s s := ⟨rfl, fun _ => .inl rfl⟩

theorem Switched.aged (h : Switched s s') (p : Slot) : s'.aged p = s.aged p := by
  unfold Mlfq.aged
  rw [h.ticks]
  rcases h.proc p with hsame | ⟨-, -, hup⟩
  · rw [hsame]
  · rw [hup]

theorem Switched.trans (h : Switched s s₁) (h' : Switched s₁ s') : Switched s s' := by
  refine ⟨h'.ticks.trans h.ticks, fun p => ?_⟩
  rcases h'.proc p with hsame' | ⟨haged', hlt', hup'⟩
  · rw [hsame']
    exact h.proc p
  rw [h.aged p] at haged'
  refine .inr ⟨haged', ?_⟩
  rcases h.proc p with hsame | ⟨-, hlt, hup⟩
  · rw [hsame] at hlt' hup'
    exact ⟨hlt', hup'⟩
  · refine ⟨Int.lt_trans hlt' hlt, ?_⟩
    rw [hup] at hup'
    exact hup'

theorem switched_promote (haged : s.aged p = true) (q : Nat) : Switched s (s.promote q p) := by
  refine ⟨rfl, fun p' => ?_⟩
  rw [promote_proc]
  split
  · rename_i hp
    rw [hp]
    exact .inr ⟨haged, Int.sub_one_lt_iff.mpr le_rfl, rfl⟩
  · exact .inl rfl

theorem switched_switchLevel (q k : Nat) : ∀ s : Mlfq, Switched s (switchLevel q k s) := by
  induction k with
  | zero => exact Switched.refl
  | succ k ih =>
    intro s
    rw [switchLevel]
    split
    · exact Switched.refl s
    · split
      · rename_i p _ haged
        exact (switched_promote haged q).trans (ih _)
      · exact Switched.refl s

theorem switched_queue_switch (s : Mlfq) : Switched s s.queue_switch := by
  refine List.foldlRecOn [1, 2, 3, 4] _ (Switched.refl s) ?_
  intro s₁ h₁ q _
  exact h₁.trans (switched_switchLevel q _ s₁)

/-! ## §2. Queueing and searching. -/

/-- RUNNABLE and not queued, by its flag. -/
def unqueued (s : Mlfq) (p : Slot) : Bool := (s.proc p).state = .RUNNABLE ∧ (s.proc p).qued_fl = false

theorem Switched.unqueued (h : Switched s s') (p : Slot) : s'.unqueued p = s.unqueued p := by
  unfold Mlfq.unqueued
  rcases h.proc p with hsame | ⟨-, -, hup⟩
  · rw [hsame]
  · rw [hup]

theorem requeue_effect (h : s.requeue p = .ok s') :
    s'.ticks = s.ticks ∧ ∀ p', s'.proc p' = if p' = p then (s.proc p).stamped s.ticks else s.proc p' := by
  unfold requeue at h
  split at h
  · cases h
  cases h
  refine ⟨rfl, fun p' => ?_⟩
  by_cases hp : p' = p
  · rw [if_pos hp, hp]
    exact setProc_proc_same ..
  · rw [if_neg hp]
    exact setProc_proc_ne _ _ hp

theorem enqueue_effect (h : s.enqueue p = .ok s') :
    s'.ticks = s.ticks
      ∧ ∀ p', s'.proc p' = if p' = p ∧ s.unqueued p' = true then (s.proc p').stamped s.ticks else s.proc p' := by
  unfold enqueue at h
  split at h
  · rename_i hc
    obtain ⟨hticks, hproc⟩ := requeue_effect h
    refine ⟨hticks, fun p' => ?_⟩
    rw [hproc p']
    by_cases hp : p' = p
    · subst hp
      rw [if_pos rfl, if_pos ⟨rfl, decide_eq_true hc⟩]
    · rw [if_neg hp, if_neg fun hand => hp hand.1]
  · rename_i hc
    cases h
    refine ⟨rfl, fun p' => ?_⟩
    rw [if_neg]
    rintro ⟨rfl, hun⟩
    exact hc (of_decide_eq_true hun)

/-- **The sweep**, by induction on the slots: a process that has been queued is not queued again. -/
theorem sweep_effect (ps : List Slot) : ∀ {s s' : Mlfq}, ps.foldlM enqueue s = .ok s' →
    s'.ticks = s.ticks
      ∧ ∀ p, s'.proc p = if p ∈ ps ∧ s.unqueued p = true then (s.proc p).stamped s.ticks else s.proc p := by
  induction ps with
  | nil =>
    intro s s' h
    cases h
    exact ⟨rfl, fun p => by rw [if_neg fun hand => List.not_mem_nil hand.1]⟩
  | cons a ps ih =>
    intro s s' h
    obtain ⟨s₁, hone, hrest⟩ := Lib.bind_ok h
    obtain ⟨hticks, hproc⟩ := enqueue_effect hone
    obtain ⟨hticks', hproc'⟩ := ih hrest
    refine ⟨hticks'.trans hticks, fun p => ?_⟩
    rw [hproc' p, hticks]
    by_cases hp : p = a ∧ s.unqueued p = true
    · have hdone : s₁.proc p = (s.proc p).stamped s.ticks := by rw [hproc p, if_pos hp]
      have hnot : s₁.unqueued p = false := by
        unfold unqueued
        rw [hdone]
        exact decide_eq_false fun hand => Bool.noConfusion hand.2
      rw [if_neg fun hand => Bool.noConfusion (hnot.symm.trans hand.2), hdone,
        if_pos ⟨by rw [hp.1]; exact List.mem_cons_self, hp.2⟩]
    have hsame : s₁.proc p = s.proc p := by rw [hproc p, if_neg hp]
    have hun : s₁.unqueued p = s.unqueued p := by
      unfold unqueued
      rw [hsame]
    rw [hsame, hun]
    refine if_congr ⟨fun hand => ⟨List.mem_cons_of_mem a hand.1, hand.2⟩, fun hand => ⟨?_, hand.2⟩⟩ rfl rfl
    exact (List.mem_cons.mp hand.1).resolve_left fun heq => hp ⟨heq, hand.2⟩

/-- Flags are cleared, and nothing else changes. -/
structure Cleared (s s' : Mlfq) : Prop where
  ticks : s'.ticks = s.ticks
  proc : ∀ p, s'.proc p = s.proc p ∨ s'.proc p = { s.proc p with qued_fl := false }

theorem Cleared.refl (s : Mlfq) : Cleared s s := ⟨rfl, fun _ => .inl rfl⟩

theorem Cleared.trans (h : Cleared s s₁) (h' : Cleared s₁ s') : Cleared s s' := by
  refine ⟨h'.ticks.trans h.ticks, fun p => ?_⟩
  rcases h'.proc p with hsame' | hclear'
  · rw [hsame']
    exact h.proc p
  rw [hclear']
  rcases h.proc p with hsame | hclear
  · rw [hsame]
    exact .inr rfl
  · rw [hclear]
    exact .inr rfl

theorem cleared_one (s : Mlfq) (q : Nat) (que : Que) (p : Slot) :
    Cleared s ((s.setQue q que).setProc p { s.proc p with qued_fl := false }) := by
  refine ⟨rfl, fun p' => ?_⟩
  by_cases hp : p' = p
  · rw [hp, setProc_proc_same]
    exact .inr rfl
  · rw [setProc_proc_ne _ _ hp]
    exact .inl rfl

/-- The search clears flags, and finds a RUNNABLE process. -/
def Searched (s : Mlfq) (out : Mlfq × Option Slot) : Prop :=
  Cleared s out.1 ∧ ∀ p, out.2 = some p → (out.1.proc p).state = .RUNNABLE

theorem popLevel_searched (q k : Nat) : ∀ s : Mlfq, Searched s (popLevel q k s) := by
  induction k with
  | zero => exact fun s => ⟨.refl s, by simp [popLevel]⟩
  | succ k ih =>
    intro s
    rw [popLevel]
    split
    · exact ⟨.refl s, by simp⟩
    rename_i que p _
    have hone := cleared_one s q que p
    dsimp only
    split
    · rename_i hst
      refine ⟨hone, fun p' hp' => ?_⟩
      cases hp'
      exact hst
    · obtain ⟨hclear, hfound⟩ := ih ((s.setQue q que).setProc p { s.proc p with qued_fl := false })
      exact ⟨hone.trans hclear, hfound⟩

theorem popLevels_searched (qs : List Nat) : ∀ s : Mlfq, Searched s (popLevels qs s) := by
  induction qs with
  | nil => exact fun s => ⟨.refl s, fun p hp => (nomatch hp)⟩
  | cons q qs ih =>
    intro s
    have hone := popLevel_searched q (s.mlfqs q).size s
    rw [popLevels]
    split
    · rename_i s₁ p heq
      rw [heq] at hone
      exact hone
    · rename_i s₁ heq
      rw [heq] at hone
      obtain ⟨hclear, hfound⟩ := ih s₁
      exact ⟨hone.1.trans hclear, hfound⟩

/-! ## §3. A round. -/

theorem schedule_of_dispatch (h : s.dispatch = .ok s') : ∃ r, s.schedule = .ok (s', r) := by
  unfold dispatch at h
  cases hrun : s.schedule with
  | error e => rw [hrun] at h; cases h
  | ok out =>
    rw [hrun] at h
    cases h
    exact ⟨out.2, rfl⟩

/-- What a round that switches to `r` does to each process. -/
structure Scheduled (s s' : Mlfq) (r : Option Slot) : Prop where
  ticks : s'.ticks = s.ticks
  level : ∀ p, (s'.proc p).curr_q = (s.proc p).curr_q
    ∨ (s.aged p = true ∧ (s'.proc p).curr_q < (s.proc p).curr_q)
  stamp : ∀ p, (s'.proc p).q_enter_time = if s.unqueued p then s.ticks.toUInt64 else (s.proc p).q_enter_time
  charge : ∀ p, (s'.proc p).cq_rticks = (s.proc p).cq_rticks ∨ (s'.proc p).cq_rticks = 0
  state : ∀ p, (s'.proc p).state = if r = some p then .RUNNING else (s.proc p).state
  chosen : ∀ p, r = some p → (s.proc p).state = .RUNNABLE

/-- Aging and queueing. -/
theorem prepare_effect (h : (List.finRange NPROC).foldlM enqueue s.queue_switch = .ok s') : Scheduled s s' none := by
  have hswitch := switched_queue_switch s
  obtain ⟨hticks, hproc⟩ := sweep_effect _ h
  -- the sweep goes over all slots
  have hall : ∀ p, s'.proc p = if s.unqueued p = true then (s.queue_switch.proc p).stamped s.ticks else s.queue_switch.proc p := by
    intro p
    rw [hproc p, hswitch.unqueued, hswitch.ticks]
    exact if_congr (and_iff_right (List.mem_finRange p)) rfl rfl
  refine ⟨hticks.trans hswitch.ticks, fun p => ?_, fun p => ?_, fun p => ?_, fun p => ?_, fun p hp => (nomatch hp)⟩
  · have hlevel : (s'.proc p).curr_q = (s.queue_switch.proc p).curr_q := by
      rw [hall p]
      split
      · rfl
      · rfl
    rw [hlevel]
    rcases hswitch.proc p with hsame | ⟨haged, hlt, -⟩
    · rw [hsame]
      exact .inl rfl
    · exact .inr ⟨haged, hlt⟩
  · rw [hall p]
    split
    · rfl
    · rcases hswitch.proc p with hsame | ⟨-, -, hup⟩
      · rw [hsame]
      · rw [hup]
  · rw [hall p]
    split
    · exact .inr rfl
    · rcases hswitch.proc p with hsame | ⟨-, -, hup⟩
      · rw [hsame]
        exact .inl rfl
      · rw [hup]
        exact .inr rfl
  · rw [if_neg (fun hnone => nomatch hnone), hall p]
    have hstate : (s.queue_switch.proc p).state = (s.proc p).state := (sameFlags_queue_switch s p).1
    split
    · exact hstate
    · exact hstate

/-- The search and the choice change flags, and the state of the process chosen. -/
theorem Scheduled.choose {r : Option Slot} (h : Scheduled s s₁ none) (hstate : ∀ p, (s'.proc p).state = if r = some p then .RUNNING
      else (s₁.proc p).state) (hchosen : ∀ p, r = some p → (s₁.proc p).state = .RUNNABLE) (hticks : s'.ticks = s₁.ticks)
    (hsame : ∀ p, (s'.proc p).curr_q = (s₁.proc p).curr_q ∧ (s'.proc p).q_enter_time = (s₁.proc p).q_enter_time
      ∧ (s'.proc p).cq_rticks = (s₁.proc p).cq_rticks) : Scheduled s s' r := by
  have hbefore : ∀ p, (s₁.proc p).state = (s.proc p).state := by
    intro p
    rw [h.state p, if_neg (fun hnone => nomatch hnone)]
  refine ⟨hticks.trans h.ticks, fun p => ?_, fun p => ?_, fun p => ?_, fun p => ?_, fun p hp => ?_⟩
  · rw [(hsame p).1]
    exact h.level p
  · rw [(hsame p).2.1]
    exact h.stamp p
  · rw [(hsame p).2.2]
    exact h.charge p
  · rw [hstate p, hbefore p]
  · rw [← hbefore p]
    exact hchosen p hp

theorem Cleared.same (h : Cleared s s') (p : Slot) : (s'.proc p).curr_q = (s.proc p).curr_q
    ∧ (s'.proc p).q_enter_time = (s.proc p).q_enter_time ∧ (s'.proc p).cq_rticks = (s.proc p).cq_rticks := by
  rcases h.proc p with hsame | hclear
  · rw [hsame]
    exact ⟨rfl, rfl, rfl⟩
  · rw [hclear]
    exact ⟨rfl, rfl, rfl⟩

theorem Cleared.state (h : Cleared s s') (p : Slot) : (s'.proc p).state = (s.proc p).state := by
  rcases h.proc p with hsame | hclear
  · rw [hsame]
  · rw [hclear]

/-- **A round.** -/
theorem schedule_effect {r : Option Slot} (h : s.schedule = .ok (s', r)) : Scheduled s s' r := by
  obtain ⟨s₁, hsweep, hpop⟩ := Lib.bind_ok h
  have hprep := prepare_effect hsweep
  obtain ⟨hclear, hfound⟩ := popLevels_searched [0, 1, 2, 3, 4] s₁
  split at hpop
  · rename_i s₂ heq
    cases hpop
    rw [heq] at hclear
    refine hprep.choose (fun p => ?_) (fun p hp => (nomatch hp)) hclear.ticks hclear.same
    exact hclear.state p
  rename_i s₂ p heq
  cases hpop
  rw [heq] at hclear hfound
  refine hprep.choose (fun p' => ?_) (fun p' hp' => ?_) hclear.ticks (fun p' => ?_)
  · by_cases hp : p' = p
    · rw [hp, setProc_proc_same, if_pos rfl]
    · rw [setProc_proc_ne _ _ hp, if_neg fun heq => hp (Option.some.inj heq).symm]
      exact hclear.state p'
  · cases hp'
    rw [← hclear.state p]
    exact hfound p rfl
  · by_cases hp : p' = p
    · rw [hp, setProc_proc_same]
      exact hclear.same p
    · rw [setProc_proc_ne _ _ hp]
      exact hclear.same p'

/-! ## §4. A clock interrupt. -/

/-- What the loop of `update_ticks` has done to the slots `ps`. -/
structure Charged (ps : List Slot) (s s' : Mlfq) : Prop where
  ticks : s'.ticks = s.ticks
  state : ∀ p, (s'.proc p).state = (s.proc p).state
  level : ∀ p, (s'.proc p).curr_q = (s.proc p).curr_q
  stamp : ∀ p, (s'.proc p).q_enter_time = (s.proc p).q_enter_time
  charge : ∀ p, (s'.proc p).cq_rticks
    = if p ∈ ps ∧ (s.proc p).state = .RUNNING then (s.proc p).cq_rticks + 1 else (s.proc p).cq_rticks

/-- Nothing to charge. -/
theorem Charged.refl {ps : List Slot} (h : ∀ p ∈ ps, (s.proc p).state ≠ .RUNNING) : Charged ps s s := by
  refine ⟨rfl, fun _ => rfl, fun _ => rfl, fun _ => rfl, fun p => ?_⟩
  rw [if_neg fun hand => h p hand.1 hand.2]

theorem Charged.cons {a : Slot} {ps : List Slot} (h : Charged [a] s s₁) (hnot : a ∉ ps) (h' : Charged ps s₁ s') :
    Charged (a :: ps) s s' := by
  refine ⟨h'.ticks.trans h.ticks, fun p => (h'.state p).trans (h.state p), fun p => (h'.level p).trans (h.level p),
    fun p => (h'.stamp p).trans (h.stamp p), fun p => ?_⟩
  rw [h'.charge p, h.state p, h.charge p]
  by_cases hp : p = a
  · -- the later turns do not come back to this slot
    subst hp
    rw [if_neg fun hand => hnot hand.1]
    exact if_congr (and_congr_left fun _ => iff_of_true List.mem_cons_self List.mem_cons_self) rfl rfl
  · rw [if_neg (c := p ∈ [a] ∧ _) fun hand => hp (List.mem_singleton.mp hand.1)]
    refine if_congr (and_congr_left fun _ => ?_) rfl rfl
    rw [List.mem_cons, or_iff_right hp]

theorem tickOne_charged (h : s.tickOne p = .ok s') : Charged [p] s s' := by
  unfold tickOne at h
  split at h
  · rename_i hrun
    split at h
    · cases h
    rename_i q _
    cases h
    refine ⟨rfl, fun p' => ?_, fun p' => ?_, fun p' => ?_, fun p' => ?_⟩
    all_goals
      by_cases hp : p' = p
      · subst hp
        simp [hrun]
      · simp [setProc_proc_ne _ _ hp, hp]
  · rename_i hrun
    cases h
    refine .refl fun p' hp' => ?_
    rw [List.mem_singleton.mp hp']
    exact hrun

/-- **The loop of `update_ticks`**, by induction on the slots that are left. -/
theorem tick_charged (ps : List Slot) : ∀ {s s' : Mlfq}, ps.Nodup → ps.foldlM tickOne s = .ok s' → Charged ps s s' := by
  induction ps with
  | nil =>
    intro s s' _ h
    cases h
    exact .refl fun p hp => absurd hp List.not_mem_nil
  | cons a ps ih =>
    intro s s' hnodup h
    obtain ⟨hnot, hnodup⟩ := List.nodup_cons.mp hnodup
    obtain ⟨s₁, hone, hrest⟩ := Lib.bind_ok h
    exact (tickOne_charged hone).cons hnot (ih hnodup hrest)

/-- What a clock interrupt does to each process. -/
structure Ticked (s s' : Mlfq) : Prop where
  ticks : s'.ticks = s.ticks + 1
  level : ∀ p, (s'.proc p).curr_q = (s.proc p).curr_q
    ∨ (aged { s with ticks := s.ticks + 1 } p = true ∧ (s'.proc p).curr_q < (s.proc p).curr_q)
  stamp : ∀ p, (s'.proc p).q_enter_time = (s.proc p).q_enter_time
  charge : ∀ p, if (s.proc p).state = .RUNNING then (s'.proc p).cq_rticks = (s.proc p).cq_rticks + 1
    else (s'.proc p).cq_rticks = (s.proc p).cq_rticks ∨ (s'.proc p).cq_rticks = 0
  state : ∀ p, (s'.proc p).state = (s.proc p).state ∨ ((s.proc p).state = .SLEEPING ∧ (s'.proc p).state = .RUNNABLE)

theorem wakeup_effect (s : Mlfq) (chan : Nat) (p : Slot) : (s.wakeup chan).proc p = s.proc p
    ∨ ((s.proc p).state = .SLEEPING ∧ (s.wakeup chan).proc p = { s.proc p with state := .RUNNABLE }) := by
  unfold wakeup
  dsimp only
  split
  · rename_i hc
    exact .inr ⟨hc.1, rfl⟩
  · exact .inl rfl

/-- Aging at the end of `update_ticks`: a RUNNING process does not age. -/
theorem Charged.switched (h : Charged (List.finRange NPROC) { s with ticks := s.ticks + 1 } s₁) : Ticked s s₁.queue_switch := by
  have hswitch := switched_queue_switch s₁
  have haged : ∀ p, s₁.aged p = aged { s with ticks := s.ticks + 1 } p := by
    intro p
    unfold Mlfq.aged
    rw [h.ticks, h.state p, h.stamp p]
  refine ⟨hswitch.ticks.trans h.ticks, fun p => ?_, fun p => ?_, fun p => ?_, fun p => ?_⟩
  · rcases hswitch.proc p with hsame | ⟨hold, hlt, -⟩
    · rw [hsame]
      exact .inl (h.level p)
    · rw [haged p] at hold
      rw [h.level p] at hlt
      exact .inr ⟨hold, hlt⟩
  · rcases hswitch.proc p with hsame | ⟨-, -, hup⟩
    · rw [hsame]
      exact h.stamp p
    · rw [hup]
      exact h.stamp p
  · have hcharge : (s₁.proc p).cq_rticks = if (s.proc p).state = .RUNNING then (s.proc p).cq_rticks + 1
        else (s.proc p).cq_rticks := by
      rw [h.charge p]
      exact if_congr (and_iff_right (List.mem_finRange p)) rfl rfl
    rcases hswitch.proc p with hsame | ⟨hold, -, hup⟩
    · rw [hsame, hcharge]
      split
      · rfl
      · exact .inl rfl
    · have hrunnable : (s.proc p).state = .RUNNABLE := by
        rw [haged p] at hold
        exact (of_decide_eq_true hold).1
      rw [hup, hrunnable]
      exact .inr rfl
  · rw [(sameFlags_queue_switch s₁ p).1]
    exact .inl (h.state p)

/-- **A clock interrupt.** -/
theorem clockintr_effect (h : s.clockintr = .ok s') : Ticked s s' := by
  obtain ⟨s₁, hticks, hok⟩ := Lib.bind_ok h
  cases hok
  have hswitched := (tick_charged _ (List.nodup_finRange NPROC) hticks).switched
  have hwake := wakeup_effect s₁.queue_switch ticksChan
  -- wakeup touches the state only
  have hkeep : ∀ p, ((s₁.queue_switch.wakeup ticksChan).proc p).curr_q = (s₁.queue_switch.proc p).curr_q
      ∧ ((s₁.queue_switch.wakeup ticksChan).proc p).q_enter_time = (s₁.queue_switch.proc p).q_enter_time
      ∧ ((s₁.queue_switch.wakeup ticksChan).proc p).cq_rticks = (s₁.queue_switch.proc p).cq_rticks := by
    intro p
    rcases hwake p with hsame | ⟨-, hwoken⟩
    · rw [hsame]
      exact ⟨rfl, rfl, rfl⟩
    · rw [hwoken]
      exact ⟨rfl, rfl, rfl⟩
  refine ⟨hswitched.ticks, fun p => ?_, fun p => ?_, fun p => ?_, fun p => ?_⟩
  · rw [(hkeep p).1]
    exact hswitched.level p
  · rw [(hkeep p).2.1]
    exact hswitched.stamp p
  · rw [(hkeep p).2.2]
    exact hswitched.charge p
  have hst := hswitched.state p
  rcases hwake p with hsame | ⟨hsleep, hwoken⟩
  · rw [hsame]
    exact hst
  rcases hst with hsame | ⟨-, hrunnable⟩
  · rw [hsame] at hsleep
    rw [hwoken]
    exact .inr ⟨hsleep, rfl⟩
  · rw [hsleep] at hrunnable
    cases hrunnable

/-! ## §5. The demotion. -/

/-- What a trap handler does to the running process `p`, whose ticks are used up if `e`. -/
structure Demoted (s s' : Mlfq) (p : Slot) (e : Bool) : Prop where
  ticks : s'.ticks = s.ticks
  state : ∀ p', (s'.proc p').state = (s.proc p').state
  stamp : ∀ p', (s'.proc p').q_enter_time = (s.proc p').q_enter_time
  other : ∀ p', p' ≠ p → s'.proc p' = s.proc p'
  level : (s'.proc p).curr_q = if e = true ∧ (s.proc p).curr_q < 4 then (s.proc p).curr_q + 1 else (s.proc p).curr_q
  charge : e = false → (s'.proc p).cq_rticks = (s.proc p).cq_rticks

theorem Demoted.refl {e : Bool} (h : e = true → ¬ (s.proc p).curr_q < 4) : Demoted s s p e := by
  refine ⟨rfl, fun _ => rfl, fun _ => rfl, fun _ _ => rfl, ?_, fun _ => rfl⟩
  rw [if_neg fun hand => h hand.1 hand.2]

/-- The ticks are used up: the level and the count of ticks change. -/
theorem Demoted.setProc {x : MProc} (hst : x.state = (s.proc p).state) (htime : x.q_enter_time = (s.proc p).q_enter_time)
    (hlevel : x.curr_q = if (s.proc p).curr_q < 4 then (s.proc p).curr_q + 1 else (s.proc p).curr_q) :
    Demoted s (s.setProc p x) p true := by
  refine ⟨rfl, fun p' => ?_, fun p' => ?_, fun p' hp => setProc_proc_ne _ _ hp, ?_, fun hne => (nomatch hne)⟩
  · by_cases hp : p' = p
    · rw [hp, setProc_proc_same, hst]
    · rw [setProc_proc_ne _ _ hp]
  · by_cases hp : p' = p
    · rw [hp, setProc_proc_same, htime]
    · rw [setProc_proc_ne _ _ hp]
  · rw [setProc_proc_same, hlevel]
    exact if_congr (and_iff_right rfl).symm rfl rfl

theorem usertrap_effect (h : s.usertrap p = .ok s') :
    ∃ e, s.expired p = .ok e ∧ (s.proc p).state = .RUNNING ∧ Demoted s s' p e := by
  unfold usertrap at h
  split at h
  · cases h
  rename_i hrun
  obtain ⟨e, hexp, h⟩ := Lib.bind_ok h
  refine ⟨e, hexp, not_not.mp hrun, ?_⟩
  split at h
  · rename_i he
    rw [he]
    split at h
    · rename_i hlt
      cases h
      exact .setProc rfl rfl (if_pos hlt).symm
    · rename_i hge
      cases h
      exact .refl fun _ => hge
  · rename_i he
    cases h
    exact .refl fun htrue => absurd htrue he

theorem kerneltrap_effect (h : s.kerneltrap p = .ok s') :
    ∃ e, s.expired p = .ok e ∧ (s.proc p).state = .RUNNING ∧ Demoted s s' p e := by
  unfold kerneltrap at h
  split at h
  · cases h
  rename_i hrun
  obtain ⟨e, hexp, h⟩ := Lib.bind_ok h
  refine ⟨e, hexp, not_not.mp hrun, ?_⟩
  split at h
  · rename_i he
    cases h
    rw [he]
    split
    · rename_i hlt
      rw [setProc_setProc, setProc_proc_same]
      exact .setProc rfl rfl (if_pos hlt).symm
    · rename_i hge
      exact .setProc rfl rfl (if_neg hge).symm
  · rename_i he
    cases h
    exact .refl fun htrue => absurd htrue he

end Mlfq

end Xv6
