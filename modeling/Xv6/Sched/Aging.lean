/-
  Xv6.Sched.Aging — `queue_switch` of the scheduler against `queue_switch` of
  the clock interrupt (`kernel/proc.c`, `clockintr` of `kernel/trap.c`).

  The queues have no lock.  The scheduler calls `queue_switch` with
  interrupts on: it tests that a level is not empty, looks at its front, and
  only `acquire` of that process's lock turns interrupts off for the test, the
  pop and the push.  A clock interrupt in between runs a whole `queue_switch`
  of its own.

  `Pc` is the place of the scheduler in its loop.  As long as no interrupt
  comes between the test and the look that takes all entries of the level
  away, and none between the look and the pop at a moment where the process
  looked at has aged (`calm`), the pop removes that process and the queues
  keep their entries (`aging_safe`); `aging_race` is a run with such an
  interrupt.
-/
import Xv6.Sched.MlfqInv

namespace Xv6

namespace Mlfq

/-! ## §1. The scheduler's loop and the interrupt. -/

/-- Where the scheduler is in `queue_switch`. -/
inductive Pc where
  /-- at the test of the while loop on level `q` -/
  | loop (q : Nat)
  /-- `que_empty(&mlfqs[q])` has returned 0 -/
  | front (q : Nat)
  /-- `que_front(&mlfqs[q])` has returned `p`; `p->lock` is not held yet -/
  | got (q : Nat) (p : Slot)
  | done
  deriving DecidableEq, Repr

/-- The queues, and the place of the scheduler. -/
structure Aging where
  m : Mlfq
  pc : Pc

/-- The next turn of the for loop. -/
def Pc.after (q : Nat) : Pc := if q + 1 < MLFQ_LEVELS then .loop (q + 1) else .done

/-- One step of the scheduler in `queue_switch`. -/
def Aging.sched (s : Aging) : MlfqResult Aging :=
  match s.pc with
  | .loop q => if que_empty (s.m.mlfqs q) then .ok ⟨s.m, Pc.after q⟩ else .ok ⟨s.m, .front q⟩
  | .front q =>
    match que_front (s.m.mlfqs q) with
    | none => .error .null
    | some p => .ok ⟨s.m, .got q p⟩
  | .got q p =>
    -- from acquire(&p->lock) to release(&p->lock)
    if s.m.aged p then .ok ⟨s.m.promote q p, .loop q⟩ else .ok ⟨s.m, Pc.after q⟩
  | .done => .error .disabled

/-- The scheduler goes on, or a clock interrupt comes. -/
inductive AgingStep where
  | sched
  | clock
  deriving DecidableEq, Repr

/-- One step of the two. -/
def Aging.step (s : Aging) : AgingStep → MlfqResult Aging
  | .sched => s.sched
  | .clock => do
      let m ← s.m.clockintr
      .ok ⟨m, s.pc⟩

/-- Some entry stays on level `q` at the next tick: `queue_switch` takes none from level 0, and none that has not aged. -/
def lasting (s : Mlfq) (q : Nat) : Prop :=
  ∃ p ∈ (s.mlfqs q).entries, q = 0 ∨ aged { s with ticks := s.ticks + 1 } p = false

instance (s : Mlfq) (q : Nat) : Decidable (s.lasting q) := inferInstanceAs (Decidable (∃ p ∈ (s.mlfqs q).entries, _))

/-- The interrupt's own `queue_switch` does not take away the entries of the level that the scheduler has found not to be
empty, and does not move the process that the scheduler holds on to. -/
def Aging.calm (s : Aging) : AgingStep → Prop
  | .sched => True
  | .clock =>
    match s.pc with
    | .front q => s.m.lasting q
    | .got _ p => aged { s.m with ticks := s.m.ticks + 1 } p = false
    | _ => True

instance (s : Aging) (a : AgingStep) : Decidable (s.calm a) := by
  unfold Aging.calm
  split
  · infer_instance
  · split <;> infer_instance

/-! ## §2. What a promotion keeps. -/

/-- Queues that are lists, with no process entered twice. -/
structure Sound (s : Mlfq) : Prop where
  ok : ∀ q, q < MLFQ_LEVELS → (s.mlfqs q).Ok
  nodup : s.allEntries.Nodup

/-- `p` is at the front of level `q` and has not aged. -/
def Waits (s : Mlfq) (q : Nat) (p : Slot) : Prop :=
  (s.mlfqs q).entries.head? = some p ∧ s.aged p = false

/-- The queues hold the same processes, an entry of level 0 or one that has
not aged is on its level, and if it was the front it still is. -/
structure Kept (s s' : Mlfq) : Prop where
  sound : s'.Sound
  perm : s'.allEntries.Perm s.allEntries
  waits : ∀ q p, q < MLFQ_LEVELS → s.Waits q p → s'.Waits q p
  stays : ∀ q p, q < MLFQ_LEVELS → p ∈ (s.mlfqs q).entries → q = 0 ∨ s.aged p = false →
    p ∈ (s'.mlfqs q).entries ∧ (q = 0 ∨ s'.aged p = false)

variable {s s' : Mlfq} {p : Slot} {q : Nat}

theorem Kept.refl (h : s.Sound) : Kept s s := ⟨h, List.Perm.refl _, fun _ _ _ hw => hw, fun _ _ _ hp hnot => ⟨hp, hnot⟩⟩

theorem Kept.trans {s₁ s₂ s₃ : Mlfq} (h : Kept s₁ s₂) (h' : Kept s₂ s₃) : Kept s₁ s₃ :=
  ⟨h'.sound, h'.perm.trans h.perm, fun q p hq hw => h'.waits q p hq (h.waits q p hq hw), fun q p hq hp hnot =>
    (h.stays q p hq hp hnot).elim (h'.stays q p hq)⟩

theorem count_allEntries (s : Mlfq) (p : Slot) : s.allEntries.count p
    = (s.mlfqs 0).entries.count p + (s.mlfqs 1).entries.count p + (s.mlfqs 2).entries.count p
      + (s.mlfqs 3).entries.count p + (s.mlfqs 4).entries.count p := by
  show ([0, 1, 2, 3, 4].flatMap fun q => (s.mlfqs q).entries).count p = _
  simp only [List.flatMap_cons, List.flatMap_nil, List.count_append, List.count_nil]
  omega

theorem length_allEntries (s : Mlfq) : s.allEntries.length
    = (s.mlfqs 0).size + (s.mlfqs 1).size + (s.mlfqs 2).size + (s.mlfqs 3).size + (s.mlfqs 4).size := by
  show ([0, 1, 2, 3, 4].flatMap fun q => (s.mlfqs q).entries).length = _
  simp only [List.flatMap_cons, List.flatMap_nil, List.length_append, List.length_nil,
    Que.entries_length]
  omega

/-- All queues together hold at most NPROC entries. -/
theorem Sound.room (h : s.Sound) (hq : q < MLFQ_LEVELS) (hpos : 0 < q)
    (hne : (s.mlfqs q).size ≠ 0) : (s.mlfqs (q - 1)).size < NPROC := by
  have hcard := h.nodup.length_le_card
  rw [Fintype.card_fin, length_allEntries] at hcard
  have hlevels : q = 1 ∨ q = 2 ∨ q = 3 ∨ q = 4 := by
    unfold MLFQ_LEVELS at hq
    omega
  rcases hlevels with rfl | rfl | rfl | rfl
  all_goals
    simp only [Nat.sub_self, Nat.reduceSub] at *
    omega

/-- The entries after a promotion from level `q`. -/
theorem promote_entries (h : s.Sound) (hq : q < MLFQ_LEVELS) (hpos : 0 < q)
    {l : List Slot} (hfront : (s.mlfqs q).entries = p :: l) :
    ((s.promote q p).mlfqs q).Ok ∧ ((s.promote q p).mlfqs q).entries = l ∧ ((s.promote q p).mlfqs (q - 1)).Ok
      ∧ ((s.promote q p).mlfqs (q - 1)).entries = (s.mlfqs (q - 1)).entries ++ [p]
      ∧ ∀ q', q' ≠ q → q' ≠ q - 1 → (s.promote q p).mlfqs q' = s.mlfqs q' := by
  have hne : q ≠ q - 1 := by omega
  have hsize : (s.mlfqs q).size ≠ 0 := by
    rw [← Que.entries_length, hfront, List.length_cons]
    omega
  obtain ⟨hpopok, htail, -⟩ := que_pop_entries (h.ok q hq)
  obtain ⟨hpushok, happ⟩ := que_push_entries (h.ok (q - 1) (by omega)) (h.room hq hpos hsize) p
  -- the pop and the push work on different levels
  have hat : (s.promote q p).mlfqs q = (que_pop (s.mlfqs q)).1 := by
    unfold promote push pop
    rw [setQue_mlfqs_ne _ _ hne, setProc_mlfqs, setQue_mlfqs_same]
  have hbelow : (s.promote q p).mlfqs (q - 1) = que_push (s.mlfqs (q - 1)) p := by
    unfold promote push pop
    rw [setQue_mlfqs_same, setProc_mlfqs, setQue_mlfqs_ne _ _ hne.symm]
  rw [hat, hbelow, htail, hfront]
  refine ⟨hpopok, rfl, hpushok, happ, fun q' hq₁ hq₂ => ?_⟩
  unfold promote push pop
  rw [setQue_mlfqs_ne _ _ hq₂, setProc_mlfqs, setQue_mlfqs_ne _ _ hq₁]

theorem promote_aged_ne (s : Mlfq) {p p' : Slot} (hne : p' ≠ p) : (s.promote q p).aged p' = s.aged p' := by
  show decide ((((s.pop q).setProc p _).proc p').state = _ ∧ _ - (((s.pop q).setProc p _).proc
    p').q_enter_time > _) = _
  rw [setProc_proc_ne _ _ hne]
  rfl

/-- **A promotion** of an aged front keeps the queues. -/
theorem promote_kept (h : s.Sound) (hq : q < MLFQ_LEVELS) (hpos : 0 < q)
    (hfront : (s.mlfqs q).entries.head? = some p) (haged : s.aged p = true) : Kept s (s.promote q p) := by
  obtain ⟨l, hl⟩ := List.head?_eq_some_iff.mp hfront
  obtain ⟨hok, hat, hok', hbelow, hrest⟩ := promote_entries h hq hpos hl
  have hperm : (s.promote q p).allEntries.Perm s.allEntries := by
    rw [List.perm_iff_count]
    intro a
    have hcount : (s.mlfqs q).entries.count a = l.count a + [p].count a := by
      rw [hl, List.count_cons, List.count_singleton]
    have hcq : ((s.promote q p).mlfqs q).entries.count a = l.count a := by rw [hat]
    have hcb : ((s.promote q p).mlfqs (q - 1)).entries.count a
        = (s.mlfqs (q - 1)).entries.count a + [p].count a := by
      rw [hbelow, List.count_append]
    have hcr : ∀ q', q' ≠ q → q' ≠ q - 1 →
        ((s.promote q p).mlfqs q').entries.count a = (s.mlfqs q').entries.count a := by
      intro q' hq₁ hq₂
      rw [hrest q' hq₁ hq₂]
    have hlevels : q = 1 ∨ q = 2 ∨ q = 3 ∨ q = 4 := by
      unfold MLFQ_LEVELS at hq
      omega
    rw [count_allEntries, count_allEntries]
    have hcr0 := hcr 0
    have hcr1 := hcr 1
    have hcr2 := hcr 2
    have hcr3 := hcr 3
    have hcr4 := hcr 4
    rcases hlevels with rfl | rfl | rfl | rfl
    all_goals
      simp only [Nat.sub_self, Nat.reduceSub] at hcb
      omega
  -- the process promoted has aged, so it is not one that has not
  have hnot_ne : ∀ p₀, s.aged p₀ = false → p₀ ≠ p := by
    rintro p₀ hnot rfl
    rw [haged] at hnot
    cases hnot
  refine ⟨⟨fun q' hq' => ?_, hperm.nodup_iff.mpr h.nodup⟩, hperm, ?_, ?_⟩
  · by_cases hq₁ : q' = q
    · rw [hq₁]; exact hok
    · by_cases hq₂ : q' = q - 1
      · rw [hq₂]; exact hok'
      · rw [hrest q' hq₁ hq₂]; exact h.ok q' hq'
  · rintro q₀ p₀ hq₀ ⟨hhead, hnot⟩
    have hne := hnot_ne p₀ hnot
    refine ⟨?_, by rw [promote_aged_ne s hne]; exact hnot⟩
    have hlevel : q₀ ≠ q := by
      rintro rfl
      rw [hfront] at hhead
      exact hne (Option.some.inj hhead).symm
    by_cases hq₂ : q₀ = q - 1
    · rw [hq₂] at hhead ⊢
      rw [hbelow, List.head?_append, hhead]
      rfl
    · rw [hrest q₀ hlevel hq₂]
      exact hhead
  · intro q₀ p₀ hq₀ hmem hnot
    refine ⟨?_, hnot.imp_right fun hnot => by rw [promote_aged_ne s (hnot_ne p₀ hnot)]; exact hnot⟩
    by_cases hq₁ : q₀ = q
    · have hne := hnot_ne p₀ (hnot.resolve_left (by omega))
      rw [hq₁, hl] at hmem
      rw [hq₁, hat]
      exact (List.mem_cons.mp hmem).resolve_left hne
    by_cases hq₂ : q₀ = q - 1
    · rw [hq₂] at hmem ⊢
      rw [hbelow]
      exact List.mem_append_left _ hmem
    · rw [hrest q₀ hq₁ hq₂]
      exact hmem

theorem switchLevel_kept (h : s.Sound) (hq : q < MLFQ_LEVELS) (hpos : 0 < q) (k : Nat) : Kept s (switchLevel q k s) := by
  induction k generalizing s with
  | zero => exact Kept.refl h
  | succ k ih =>
    unfold switchLevel
    split
    · exact Kept.refl h
    next p hfront =>
    split
    · next haged =>
      rw [que_front_eq (h.ok q hq)] at hfront
      have hone := promote_kept h hq hpos hfront haged
      exact hone.trans (ih hone.sound)
    · exact Kept.refl h

theorem queue_switch_kept (h : s.Sound) : Kept s s.queue_switch := by
  refine List.foldlRecOn [1, 2, 3, 4] _ (Kept.refl h) ?_
  intro s' hk q hmem
  have hq : 0 < q ∧ q < MLFQ_LEVELS := by
    revert q
    decide
  exact hk.trans (switchLevel_kept hk.sound hq.2 hq.1 _)

/-! ## §3. The clock interrupt. -/

/-- What `update_ticks` leaves alone: queues, clock, states and entry times. -/
def TickFrame (s s' : Mlfq) : Prop :=
  s'.mlfqs = s.mlfqs ∧ ∀ p, s'.aged p = s.aged p

theorem tickOne_frame (h : s.tickOne p = .ok s') : TickFrame s s' := by
  unfold tickOne at h
  split at h
  · split at h
    · cases h
    cases h
    refine ⟨rfl, fun p' => ?_⟩
    by_cases hp : p' = p
    · subst hp
      unfold aged
      rw [setProc_proc_same]
      rfl
    · unfold aged
      rw [setProc_proc_ne _ _ hp]
      rfl
  · cases h
    exact ⟨rfl, fun _ => rfl⟩

theorem tick_frame : ∀ (ps : List Slot) {s s' : Mlfq}, ps.foldlM tickOne s = .ok s' → TickFrame s s' := by
  intro ps
  induction ps with
  | nil =>
    intro s s' h
    cases h
    exact ⟨rfl, fun _ => rfl⟩
  | cons p ps ih =>
    intro s s' h
    rw [List.foldlM_cons] at h
    cases hone : s.tickOne p with
    | error e => rw [hone] at h; cases h
    | ok s₁ =>
      rw [hone] at h
      have h₁ := tickOne_frame hone
      have h₂ := ih h
      exact ⟨h₂.1.trans h₁.1, fun p' => (h₂.2 p').trans (h₁.2 p')⟩

/-- **A clock interrupt** keeps the queues, a front that has not aged at the
new tick, and a level from which it does not take all entries. -/
theorem clockintr_kept (h : s.Sound) (hrun : s.clockintr = .ok s') :
    s'.Sound ∧ s'.allEntries.Perm s.allEntries
      ∧ (∀ q p, q < MLFQ_LEVELS → (s.mlfqs q).entries.head? = some p →
        aged { s with ticks := s.ticks + 1 } p = false →
        (s'.mlfqs q).entries.head? = some p)
      ∧ ∀ q, q < MLFQ_LEVELS → s.lasting q → (s'.mlfqs q).entries ≠ [] := by
  unfold clockintr at hrun
  cases hticks : (List.finRange NPROC).foldlM tickOne { s with ticks := s.ticks + 1 } with
  | error e => rw [hticks] at hrun; cases hrun
  | ok s₁ =>
    rw [hticks] at hrun
    cases hrun
    obtain ⟨hques, haged⟩ := tick_frame _ hticks
    have hall : s₁.allEntries = s.allEntries := by
      unfold allEntries
      rw [hques]
    have h₁ : s₁.Sound := ⟨fun q hq => by rw [hques]; exact h.ok q hq, by rw [hall]; exact h.nodup⟩
    have hk := queue_switch_kept h₁
    -- wakeup touches no queue
    refine ⟨⟨hk.sound.ok, hk.sound.nodup⟩, hall ▸ hk.perm, fun q p hq hhead hnot => ?_, ?_⟩
    · have hw : s₁.Waits q p := ⟨by rw [hques]; exact hhead, by rw [haged]; exact hnot⟩
      exact (hk.waits q p hq hw).1
    · rintro q hq ⟨p, hp, hnot⟩
      exact List.ne_nil_of_mem (hk.stays q p hq (by rw [hques]; exact hp) (by rw [haged]; exact hnot)).1

/-! ## §4. Runs. -/

/-- The scheduler is inside `queue_switch`: the level that it has found not to be empty is not, and the process that it
holds is the front. -/
def Aging.Front (s : Aging) : Prop :=
  match s.pc with
  | .loop q => 0 < q ∧ q < MLFQ_LEVELS
  | .front q => 0 < q ∧ q < MLFQ_LEVELS ∧ (s.m.mlfqs q).entries ≠ []
  | .got q p => 0 < q ∧ q < MLFQ_LEVELS ∧ (s.m.mlfqs q).entries.head? = some p
  | .done => True

theorem Pc.after_front (m : Mlfq) (q : Nat) : Aging.Front ⟨m, Pc.after q⟩ := by
  unfold Pc.after
  split
  · next hq => exact ⟨Nat.succ_pos q, hq⟩
  · exact trivial

/-- The invariant of the interleaving. -/
structure Aging.Inv (m₀ : Mlfq) (s : Aging) : Prop where
  sound : s.m.Sound
  perm : s.m.allEntries.Perm m₀.allEntries
  front : s.Front

theorem front_ne_null (h : (s.mlfqs q).entries ≠ []) : que_front (s.mlfqs q) ≠ none := by
  unfold que_front
  split
  · next hz => exact absurd (Que.entries_nil hz) h
  · exact Option.some_ne_none _

theorem Aging.Inv.sched {m₀ : Mlfq} {s s' : Aging} (h : s.Inv m₀) (hrun : s.sched = .ok s') : s'.Inv m₀ := by
  obtain ⟨m, pc⟩ := s
  have hfront := h.front
  cases pc with
  | done => cases hrun
  | loop q =>
    obtain ⟨hpos, hq⟩ := hfront
    simp only [Aging.sched] at hrun
    split at hrun
    · cases hrun
      exact ⟨h.sound, h.perm, Pc.after_front m q⟩
    · next hne =>
      cases hrun
      refine ⟨h.sound, h.perm, hpos, hq, fun hnil => hne ?_⟩
      rw [que_empty, beq_iff_eq, ← Que.entries_length, hnil, List.length_nil]
  | front q =>
    obtain ⟨hpos, hq, -⟩ := hfront
    simp only [Aging.sched] at hrun
    split at hrun
    · cases hrun
    · next p hp =>
      cases hrun
      rw [que_front_eq (h.sound.ok q hq)] at hp
      exact ⟨h.sound, h.perm, hpos, hq, hp⟩
  | got q p =>
    obtain ⟨hpos, hq, hhead⟩ := hfront
    simp only [Aging.sched] at hrun
    split at hrun
    · next haged =>
      cases hrun
      have hk := promote_kept h.sound hq hpos hhead haged
      exact ⟨hk.sound, hk.perm.trans h.perm, hpos, hq⟩
    · cases hrun
      exact ⟨h.sound, h.perm, Pc.after_front m q⟩

theorem Aging.Inv.clock {m₀ : Mlfq} {s s' : Aging} (h : s.Inv m₀) (hcalm : s.calm .clock)
    (hrun : s.step .clock = .ok s') : s'.Inv m₀ := by
  obtain ⟨m, pc⟩ := s
  have hfront := h.front
  simp only [Aging.step] at hrun
  cases hclock : m.clockintr with
  | error e => rw [hclock] at hrun; cases hrun
  | ok m₁ =>
    rw [hclock] at hrun
    cases hrun
    obtain ⟨hsound, hperm, hkeep, hlast⟩ := clockintr_kept h.sound hclock
    refine ⟨hsound, hperm.trans h.perm, ?_⟩
    cases pc with
    | loop q | done => exact hfront
    | front q =>
      obtain ⟨hpos, hq, -⟩ := hfront
      exact ⟨hpos, hq, hlast q hq hcalm⟩
    | got q p =>
      obtain ⟨hpos, hq, hhead⟩ := hfront
      exact ⟨hpos, hq, hkeep q p hq hhead hcalm⟩

/-- **Aging is safe** in every interleaving without an interrupt that takes
away the level or the process that the scheduler is looking at: `que_front`
does not return a null pointer, the pop takes the process that it returned, no
process leaves the queues and none is entered twice. -/
theorem aging_safe {m₀ : Mlfq} (h₀ : m₀.Sound) {s : Aging}
    (hrun : Lib.Reach (· = ⟨m₀, .loop 1⟩) Aging.calm Aging.step s) :
    (∀ q, s.pc = .front q → que_front (s.m.mlfqs q) ≠ none)
      ∧ (∀ q p, s.pc = .got q p → (que_pop (s.m.mlfqs q)).2 = some p)
      ∧ s.m.allEntries.Perm m₀.allEntries ∧ s.m.allEntries.Nodup := by
  have hinv : s.Inv m₀ := by
    refine hrun.invariant (I := Aging.Inv m₀) ?_ ?_
    · rintro s rfl
      exact ⟨h₀, List.Perm.refl _, by decide, by decide⟩
    · intro s a s' h hcalm hstep
      cases a with
      | sched => exact h.sched hstep
      | clock => exact h.clock hcalm hstep
  have hfront := hinv.front
  unfold Aging.Front at hfront
  refine ⟨fun q hpc => ?_, fun q p hpc => ?_, hinv.perm, hinv.sound.nodup⟩
  · rw [hpc] at hfront
    exact front_ne_null hfront.2.2
  · rw [hpc] at hfront
    obtain ⟨-, hq, hhead⟩ := hfront
    rw [(que_pop_entries (hinv.sound.ok q hq)).2.2, hhead]

/-! ## §5. The race. -/

/-- Slots 1 and 2 wait on level 1 since tick 0 and tick 1; it is tick 30. -/
def twoWaiting : Mlfq where
  mlfqs := Function.update (fun _ => Que.empty) 1 (que_push (que_push Que.empty 1) 2)
  proc := fun p =>
    if p = 1 then ⟨.RUNNABLE, 0, 1, fun _ => 0, 0, 0, true⟩
    else if p = 2 then ⟨.RUNNABLE, 0, 1, fun _ => 0, 0, 1, true⟩
    else ⟨.UNUSED, 0, 0, fun _ => 0, 0, 0, false⟩
  ticks := 30

theorem twoWaiting_sound : twoWaiting.Sound := by
  have h₁ := (que_push_entries Que.empty_ok (by decide) 1).1
  have h₂ := (que_push_entries h₁ (by decide) 2).1
  refine ⟨fun q _ => ?_, by decide +kernel⟩
  by_cases hq : q = 1
  · subst hq
    exact h₂
  · show (Function.update (fun _ => Que.empty) 1 _ q).Ok
    rw [Function.update_of_ne hq]
    exact Que.empty_ok

/-- The tick comes before the scheduler looks: the scheduler finds slot 2. -/
theorem aging_safe_twoWaiting : ∃ s, Lib.Reach (· = ⟨twoWaiting, .loop 1⟩) Aging.calm Aging.step s
    ∧ s.pc = .got 1 2 ∧ (que_pop (s.m.mlfqs 1)).2 = some 2
    ∧ s.m.allEntries.Perm twoWaiting.allEntries ∧ s.m.allEntries.Nodup := by
  have hreach : ∃ s, Lib.Reach (· = ⟨twoWaiting, .loop 1⟩) Aging.calm Aging.step s
      ∧ decide (s.pc = .got 1 2) = true :=
    Lib.Reach.of_reaches [.clock, .sched, .sched] _ rfl (by decide +kernel)
  obtain ⟨s, hrun, htest⟩ := hreach
  have hpc := of_decide_eq_true htest
  obtain ⟨-, hpop, hperm, hnodup⟩ := aging_safe twoWaiting_sound hrun
  exact ⟨s, hrun, hpc, hpop 1 2 hpc, hperm, hnodup⟩

/-- **The race**: the tick comes between the scheduler's look at slot 1 and
its pop.  Slot 2 is popped instead and lost, and slot 1 is queued twice. -/
theorem aging_race : ∃ s, Lib.Reach (· = ⟨twoWaiting, .loop 1⟩) (fun _ _ => True) Aging.step s
    ∧ 2 ∈ twoWaiting.allEntries ∧ 2 ∉ s.m.allEntries ∧ s.m.allEntries.count 1 = 2 := by
  have hreach : ∃ s, Lib.Reach (· = ⟨twoWaiting, .loop 1⟩) (fun _ _ => True) Aging.step s
      ∧ decide (2 ∉ s.m.allEntries ∧ s.m.allEntries.count 1 = 2) = true :=
    Lib.Reach.of_reaches [.sched, .sched, .clock, .sched] _ rfl (by decide +kernel)
  obtain ⟨s, hrun, htest⟩ := hreach
  have hlost := of_decide_eq_true htest
  exact ⟨s, hrun, by decide +kernel, hlost.1, hlost.2⟩

end Mlfq

end Xv6
