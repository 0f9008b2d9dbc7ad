/-
  Xv6.Sched.MlfqInv — queue membership in the MLFQ scheduler.

  `Mlfq.Inv` says that the three records of membership agree: a slot is an
  entry of `mlfqs[q]` exactly when its `qued_fl` is set and its `curr_q` is
  `q`.  Everything the scheduler does is a composition of three moves, each
  of which keeps it:

    * `Inv.setProc` — change a process without touching the record,
    * `Inv.take`    — pop the front and clear its flag,
    * `Inv.put`     — push an unqueued process and set its flag.

  The one exception is `freeproc`, which clears the flag of a slot and
  leaves its entry in the queue.  A step that frees no queued slot keeps the
  invariant (`Inv.step`); `Xv6.Sched.Round` has the runs.
-/
import Xv6.Sched.Mlfq

namespace Xv6

namespace Mlfq

/-! ## §1. The invariant and the three moves. -/

/-- **The three records of membership agree**: a process with `qued_fl` set is in the queue of its level, once, and a
process without it is in none. -/
structure Placed (s : Mlfq) : Prop where
  ok : ∀ q, q < MLFQ_LEVELS → (s.mlfqs q).Ok
  nodup : ∀ q, q < MLFQ_LEVELS → (s.mlfqs q).entries.Nodup
  mem : ∀ q, q < MLFQ_LEVELS → ∀ p,
    p ∈ (s.mlfqs q).entries ↔ (s.proc p).qued_fl = true ∧ (s.proc p).curr_q = q
  range : ∀ p, 0 ≤ (s.proc p).curr_q ∧ (s.proc p).curr_q < MLFQ_LEVELS

/-- Moreover, a process that runs is not queued, and a free slot neither. -/
structure Inv (s : Mlfq) : Prop extends Placed s where
  idle : ∀ p, (s.proc p).state = .RUNNING ∨ (s.proc p).state = .UNUSED → (s.proc p).qued_fl = false

variable {s s' : Mlfq} {p : Slot} {q : Nat}

@[simp] theorem setProc_mlfqs (s : Mlfq) (p : Slot) (x : MProc) : (s.setProc p x).mlfqs = s.mlfqs := rfl

@[simp] theorem setProc_proc_same (s : Mlfq) (p : Slot) (x : MProc) : (s.setProc p x).proc p = x := Function.update_self ..

theorem setProc_proc_ne (s : Mlfq) (x : MProc) {p p' : Slot} (h : p' ≠ p) : (s.setProc p x).proc p' = s.proc p' := Function.update_of_ne h ..

theorem setProc_setProc (s : Mlfq) (p : Slot) (x y : MProc) : (s.setProc p x).setProc p y = s.setProc p y := by
  simp [setProc]

@[simp] theorem setQue_proc (s : Mlfq) (q : Nat) (que : Que) : (s.setQue q que).proc = s.proc := rfl

@[simp] theorem setQue_mlfqs_same (s : Mlfq) (q : Nat) (que : Que) : (s.setQue q que).mlfqs q = que := Function.update_self ..

theorem setQue_mlfqs_ne (s : Mlfq) (que : Que) {q q' : Nat} (h : q' ≠ q) : (s.setQue q que).mlfqs q' = s.mlfqs q' := Function.update_of_ne h ..

/-- A level that a process of the invariant names. -/
theorem Placed.level_eq (h : s.Placed) (p : Slot) :
    ∃ q, q < MLFQ_LEVELS ∧ level (s.proc p).curr_q = some q ∧ (s.proc p).curr_q = q := by
  have hr := h.range p
  exact ⟨(s.proc p).curr_q.toNat, by omega, by simp [level, hr], by omega⟩

/-- A queue without `p` has room for it. -/
theorem Placed.room (h : s.Placed) (hq : q < MLFQ_LEVELS) (hp : p ∉ (s.mlfqs q).entries) : (s.mlfqs q).size < NPROC := by
  have hnd : (p :: (s.mlfqs q).entries).Nodup := List.nodup_cons.mpr ⟨hp, h.nodup q hq⟩
  have hcard := hnd.length_le_card
  rw [List.length_cons, Que.entries_length, Fintype.card_fin] at hcard
  omega

variable {x : MProc}

/-- **A change that keeps the record**: flag and level stay, or the process is
not queued. -/
theorem Placed.setProc (h : s.Placed) (hfl : x.qued_fl = (s.proc p).qued_fl)
    (hq : x.qued_fl = true → x.curr_q = (s.proc p).curr_q)
    (hr : 0 ≤ x.curr_q ∧ x.curr_q < MLFQ_LEVELS) : (s.setProc p x).Placed where
  ok := h.ok
  nodup := h.nodup
  mem := fun q hlt p' => by
    rw [setProc_mlfqs, h.mem q hlt p']
    by_cases hp : p' = p
    · subst hp
      rw [setProc_proc_same, ← hfl]
      constructor
      · rintro ⟨hx, hc⟩
        exact ⟨hx, by rw [hq hx, hc]⟩
      · rintro ⟨hx, hc⟩
        exact ⟨hx, by rw [← hq hx, hc]⟩
    · rw [setProc_proc_ne s x hp]
  range := fun p' => by
    by_cases hp : p' = p
    · subst hp; rw [setProc_proc_same]; exact hr
    · rw [setProc_proc_ne s x hp]; exact h.range p'

variable (h : s.Inv)
include h

/-- One process changes; the others are idle or queued as they were. -/
theorem Inv.idle_update (hidle : x.state = .RUNNING ∨ x.state = .UNUSED → x.qued_fl = false)
    (p' : Slot) (hst : ((s.setProc p x).proc p').state = .RUNNING ∨ ((s.setProc p x).proc p').state = .UNUSED) :
    ((s.setProc p x).proc p').qued_fl = false := by
  by_cases hp : p' = p
  · subst hp
    rw [setProc_proc_same] at hst ⊢
    exact hidle hst
  · rw [setProc_proc_ne s x hp] at hst ⊢
    exact h.idle p' hst

theorem Inv.setProc (hfl : x.qued_fl = (s.proc p).qued_fl)
    (hq : x.qued_fl = true → x.curr_q = (s.proc p).curr_q) (hr : 0 ≤ x.curr_q ∧ x.curr_q < MLFQ_LEVELS)
    (hidle : x.state = .RUNNING ∨ x.state = .UNUSED → x.qued_fl = false) : (s.setProc p x).Inv :=
  ⟨h.toPlaced.setProc hfl hq hr, h.idle_update hidle⟩

omit h

/-- **Taking** the front `p` of a level out of its queue. -/
theorem Placed.take (h : s.Placed) (hq : q < MLFQ_LEVELS)
    (hfront : (s.mlfqs q).entries.head? = some p) (hfl : x.qued_fl = false)
    (hr : 0 ≤ x.curr_q ∧ x.curr_q < MLFQ_LEVELS) : ((s.pop q).setProc p x).Placed := by
  obtain ⟨hok, htail, -⟩ := que_pop_entries (h.ok q hq)
  have hcons : (s.mlfqs q).entries = p :: (s.mlfqs q).entries.tail := by
    cases he : (s.mlfqs q).entries with
    | nil => rw [he] at hfront; cases hfront
    | cons a l => rw [he] at hfront; cases hfront; rfl
  have hnd := h.nodup q hq
  rw [hcons] at hnd
  obtain ⟨hnot, hndt⟩ := List.nodup_cons.mp hnd
  have hp := (h.mem q hq p).mp (by rw [hcons]; exact List.mem_cons_self)
  have hques : ∀ q', ((s.pop q).setProc p x).mlfqs q'
      = if q' = q then (que_pop (s.mlfqs q)).1 else s.mlfqs q' := by
    intro q'
    by_cases hqq : q' = q
    · subst hqq; simp [pop]
    · simp [pop, setQue_mlfqs_ne _ _ hqq, hqq]
  constructor
  · intro q' hq'
    rw [hques]
    split
    · exact hok
    · exact h.ok q' hq'
  · intro q' hq'
    rw [hques]
    split
    · rw [htail]; exact hndt
    · exact h.nodup q' hq'
  · intro q' hq' p'
    rw [hques]
    by_cases hpp : p' = p
    · -- `p` is in no queue any more
      subst hpp
      rw [setProc_proc_same, hfl]
      simp only [Bool.false_eq_true, false_and, iff_false]
      split
      · rw [htail]; exact hnot
      · next hne =>
        intro hin
        have hc := ((h.mem q' hq' p').mp hin).2
        rw [hp.2] at hc
        exact hne (by exact_mod_cast hc.symm)
    rw [setProc_proc_ne _ x hpp]
    have hold := h.mem q' hq' p'
    split
    · next heq =>
      subst heq
      rw [htail]
      rw [hcons, List.mem_cons] at hold
      show _ ↔ (s.proc p').qued_fl = true ∧ (s.proc p').curr_q = q'
      rw [← hold]
      simp [hpp]
    · exact hold
  · intro p'
    by_cases hpp : p' = p
    · subst hpp; rw [setProc_proc_same]; exact hr
    · rw [setProc_proc_ne _ x hpp]; exact h.range p'

theorem Inv.take (h : s.Inv) (hq : q < MLFQ_LEVELS)
    (hfront : (s.mlfqs q).entries.head? = some p) (hfl : x.qued_fl = false)
    (hr : 0 ≤ x.curr_q ∧ x.curr_q < MLFQ_LEVELS) : ((s.pop q).setProc p x).Inv :=
  ⟨h.toPlaced.take hq hfront hfl hr, h.idle_update fun _ => hfl⟩

/-- **Putting** an unqueued process into the queue of its level. -/
theorem Placed.put (h : s.Placed) (hq : q < MLFQ_LEVELS) (hnot : (s.proc p).qued_fl = false)
    (hfl : x.qued_fl = true) (hcq : x.curr_q = q) : ((s.setProc p x).push q p).Placed := by
  have habsent : ∀ q', q' < MLFQ_LEVELS → p ∉ (s.mlfqs q').entries := by
    intro q' hq' hin
    have := ((h.mem q' hq' p).mp hin).1
    rw [hnot] at this
    cases this
  obtain ⟨hok, happ⟩ := que_push_entries (h.ok q hq) (h.room hq (habsent q hq)) p
  have hques : ∀ q', ((s.setProc p x).push q p).mlfqs q'
      = if q' = q then que_push (s.mlfqs q) p else s.mlfqs q' := by
    intro q'
    by_cases hqq : q' = q
    · subst hqq; simp [push]
    · simp [push, setQue_mlfqs_ne _ _ hqq, hqq]
  constructor
  · intro q' hq'
    rw [hques]
    split
    · exact hok
    · exact h.ok q' hq'
  · intro q' hq'
    rw [hques]
    split
    · rw [happ, List.nodup_append]
      refine ⟨h.nodup q hq, List.nodup_singleton p, ?_⟩
      intro a ha b hb
      rw [List.mem_singleton] at hb
      rintro rfl
      exact habsent q hq (hb ▸ ha)
    · exact h.nodup q' hq'
  · intro q' hq' p'
    rw [hques]
    show _ ↔ ((s.setProc p x).proc p').qued_fl = true ∧ ((s.setProc p x).proc p').curr_q = q'
    by_cases hpp : p' = p
    · subst hpp
      rw [setProc_proc_same, hfl, hcq]
      split
      · next heq => simp [happ, heq]
      · next hne =>
        simp only [true_and]
        constructor
        · intro hin; exact absurd hin (habsent q' hq')
        · intro hc; exact absurd (by exact_mod_cast hc.symm) hne
    · rw [setProc_proc_ne _ x hpp]
      split
      · next heq =>
        subst heq
        rw [happ, List.mem_append, List.mem_singleton, ← h.mem q' hq' p']
        simp [hpp]
      · exact h.mem q' hq' p'
  · intro p'
    show 0 ≤ ((s.setProc p x).proc p').curr_q ∧ ((s.setProc p x).proc p').curr_q < MLFQ_LEVELS
    by_cases hpp : p' = p
    · subst hpp; rw [setProc_proc_same, hcq]; omega
    · rw [setProc_proc_ne _ x hpp]; exact h.range p'

theorem Inv.put (h : s.Inv) (hq : q < MLFQ_LEVELS) (hnot : (s.proc p).qued_fl = false)
    (hfl : x.qued_fl = true) (hcq : x.curr_q = q)
    (hst : x.state ≠ .RUNNING ∧ x.state ≠ .UNUSED) : ((s.setProc p x).push q p).Inv :=
  ⟨h.toPlaced.put hq hnot hfl hcq, h.idle_update fun hrun => (hrun.elim hst.1 hst.2).elim⟩

/-! ## §2. The scheduler keeps it. -/

theorem Placed.front (h : s.Placed) (hq : q < MLFQ_LEVELS) : que_front (s.mlfqs q) = (s.mlfqs q).entries.head? := que_front_eq (h.ok q hq)

/-- The front of level `q` is queued at level `q`. -/
theorem Placed.front_queued (h : s.Placed) (hq : q < MLFQ_LEVELS) (hfront : que_front (s.mlfqs q) = some p) :
    (s.proc p).qued_fl = true ∧ (s.proc p).curr_q = q := by
  rw [h.front hq] at hfront
  exact (h.mem q hq p).mp (List.mem_of_mem_head? hfront)

/-- Promotion is taking from level `q` and putting into level `q - 1`. -/
theorem Placed.promote (h : s.Placed) (hq : q < MLFQ_LEVELS) (hpos : 0 < q)
    (hfront : que_front (s.mlfqs q) = some p) : (s.promote q p).Placed := by
  obtain ⟨hfl, hcq⟩ := h.front_queued hq hfront
  rw [h.front hq] at hfront
  have htake := h.take hq hfront (x := { s.proc p with qued_fl := false }) rfl (h.range p)
  have hput := htake.put (q := q - 1) (p := p) (by omega) (by rw [setProc_proc_same])
    (x := { s.proc p with curr_q := (s.proc p).curr_q - 1, cq_rticks := 0 })
    hfl (by show (s.proc p).curr_q - 1 = _; omega)
  rw [setProc_setProc] at hput
  exact hput

theorem Placed.switchLevel (h : s.Placed) (hq : q < MLFQ_LEVELS) (hpos : 0 < q) (k : Nat) :
    (switchLevel q k s).Placed := by
  induction k generalizing s with
  | zero => exact h
  | succ k ih =>
    rw [Mlfq.switchLevel]
    split
    · exact h
    · next p hfront =>
      split
      · exact ih (h.promote hq hpos hfront)
      · exact h

theorem Placed.queue_switch (h : s.Placed) : s.queue_switch.Placed := by
  refine List.foldlRecOn [1, 2, 3, 4] _ h ?_
  intro s h q hmem
  have hq : 0 < q ∧ q < MLFQ_LEVELS := by
    revert q
    decide
  exact h.switchLevel hq.2 hq.1 _

/-- Aging leaves the states and the flags. -/
def SameFlags (s s' : Mlfq) : Prop :=
  ∀ p, (s'.proc p).state = (s.proc p).state ∧ (s'.proc p).qued_fl = (s.proc p).qued_fl

theorem sameFlags_promote (s : Mlfq) (q : Nat) (p : Slot) : SameFlags s (s.promote q p) := by
  intro p'
  by_cases hp : p' = p
  · subst hp
    have hself : (s.promote q p').proc p' = { s.proc p' with curr_q := (s.proc p').curr_q - 1, cq_rticks := 0 } :=
      setProc_proc_same ..
    rw [hself]
    exact ⟨rfl, rfl⟩
  · have hother : (s.promote q p).proc p' = s.proc p' := setProc_proc_ne _ _ hp
    rw [hother]
    exact ⟨rfl, rfl⟩

theorem SameFlags.trans {s₁ s₂ s₃ : Mlfq} (h : SameFlags s₁ s₂) (h' : SameFlags s₂ s₃) : SameFlags s₁ s₃ :=
  fun p => ⟨(h' p).1.trans (h p).1, (h' p).2.trans (h p).2⟩

theorem sameFlags_switchLevel (q k : Nat) : ∀ s : Mlfq, SameFlags s (switchLevel q k s) := by
  induction k with
  | zero => exact fun _ _ => ⟨rfl, rfl⟩
  | succ k ih =>
    intro s
    rw [Mlfq.switchLevel]
    split
    · exact fun _ => ⟨rfl, rfl⟩
    · next p hfront =>
      split
      · exact (sameFlags_promote s q p).trans (ih _)
      · exact fun _ => ⟨rfl, rfl⟩

theorem sameFlags_queue_switch (s : Mlfq) : SameFlags s s.queue_switch := by
  have hstart : SameFlags s s := fun _ => ⟨rfl, rfl⟩
  refine List.foldlRecOn [1, 2, 3, 4] _ hstart ?_
  intro s₁ h₁ q _
  exact h₁.trans (sameFlags_switchLevel q _ s₁)

include h

theorem Inv.queue_switch : s.queue_switch.Inv := by
  refine ⟨h.toPlaced.queue_switch, fun p hst => ?_⟩
  have hsame := sameFlags_queue_switch s p
  rw [hsame.1] at hst
  rw [hsame.2]
  exact h.idle p hst

/-- Re-queueing an unqueued process cannot fail. -/
theorem Inv.requeue (hfl : (s.proc p).qued_fl = false)
    (hst : (s.proc p).state ≠ .RUNNING ∧ (s.proc p).state ≠ .UNUSED) : ∃ s', s.requeue p = .ok s' ∧ s'.Inv := by
  obtain ⟨q, hq, hlevel, hcq⟩ := h.toPlaced.level_eq p
  refine ⟨_, by rw [Mlfq.requeue, hlevel], ?_⟩
  exact h.put hq hfl rfl hcq hst

theorem Inv.enqueue (p : Slot) : ∃ s', s.enqueue p = .ok s' ∧ s'.Inv := by
  rw [Mlfq.enqueue]
  split
  · next hc =>
    refine h.requeue hc.2 ?_
    rw [hc.1]
    exact ⟨by decide, by decide⟩
  · exact ⟨s, rfl, h⟩

omit h in
/-- A loop over the process table keeps what each turn keeps. -/
theorem foldlM_inv {P : Mlfq → Prop} {f : Mlfq → Slot → MlfqResult Mlfq}
    (hf : ∀ s p, P s → ∃ s', f s p = .ok s' ∧ P s') (ps : List Slot) :
    ∀ {s : Mlfq}, P s → ∃ s', ps.foldlM f s = .ok s' ∧ P s' := by
  induction ps with
  | nil => exact fun h => ⟨_, rfl, h⟩
  | cons p ps ih =>
    intro s h
    obtain ⟨s₁, hrun, h₁⟩ := hf s p h
    obtain ⟨s₂, hrest, h₂⟩ := ih h₁
    exact ⟨s₂, by rw [List.foldlM_cons, hrun]; exact hrest, h₂⟩

/-- The process found is RUNNABLE and no longer queued. -/
def Picked (s : Mlfq) : Option Slot → Prop
  | none => True
  | some p => (s.proc p).state = .RUNNABLE ∧ (s.proc p).qued_fl = false

theorem Inv.popLevel (hq : q < MLFQ_LEVELS) (k : Nat) :
    (popLevel q k s).1.Inv ∧ (popLevel q k s).1.Picked (popLevel q k s).2 := by
  induction k generalizing s with
  | zero => exact ⟨h, trivial⟩
  | succ k ih =>
    obtain ⟨-, -, hfront⟩ := que_pop_entries (h.ok q hq)
    rw [Mlfq.popLevel]
    split
    · exact ⟨h, trivial⟩
    next que p hpop =>
    rw [hpop] at hfront
    have htake := h.take hq hfront.symm (x := { s.proc p with qued_fl := false })
      rfl (h.range p)
    have hs : (s.pop q).setProc p { s.proc p with qued_fl := false }
        = (s.setQue q que).setProc p { s.proc p with qued_fl := false } := by
      rw [pop, hpop]
    rw [hs] at htake
    dsimp only
    split
    · next hst => exact ⟨htake, hst, by rw [setProc_proc_same]⟩
    · exact ih htake

theorem Inv.popLevels (qs : List Nat) (hqs : ∀ q ∈ qs, q < MLFQ_LEVELS) :
    (popLevels qs s).1.Inv ∧ (popLevels qs s).1.Picked (popLevels qs s).2 := by
  induction qs generalizing s with
  | nil => exact ⟨h, trivial⟩
  | cons q qs ih =>
    have hone := h.popLevel (hqs q List.mem_cons_self) (s.mlfqs q).size
    rw [Mlfq.popLevels]
    split
    · next s₁ p heq => rw [heq] at hone; exact hone
    · next s₁ heq =>
      rw [heq] at hone
      exact ih hone.1 (fun q' hq' => hqs q' (List.mem_cons_of_mem q hq'))

theorem Inv.dispatch : ∃ s', s.dispatch = .ok s' ∧ s'.Inv := by
  obtain ⟨s₁, hrun, h₁⟩ := foldlM_inv (fun _ p hs => Inv.enqueue hs p) (List.finRange NPROC)
    h.queue_switch
  have hpick := h₁.popLevels [0, 1, 2, 3, 4] (by decide)
  rw [Mlfq.dispatch, Mlfq.schedule, hrun]
  dsimp only [bind, Except.bind]
  split
  · next s₂ heq => rw [heq] at hpick; exact ⟨_, rfl, hpick.1⟩
  · next s₂ p heq =>
    rw [heq] at hpick
    obtain ⟨h₂, -, hfl⟩ := hpick
    exact ⟨_, rfl, h₂.setProc rfl (fun _ => rfl) (h₂.range p) (fun _ => hfl)⟩

variable (hrun : (s.proc p).state = .RUNNING)
include hrun

/-- A running process is not queued, so giving up the CPU puts it back once. -/
theorem Inv.giveUp {st : ProcState} {chan : Nat}
    (hst : st ≠ .RUNNING ∧ st ≠ .UNUSED) : ∃ s', s.giveUp p st chan = .ok s' ∧ s'.Inv := by
  have hfl := h.idle p (Or.inl hrun)
  have hset := h.setProc (p := p) (x := { s.proc p with state := st, chan := chan })
    rfl (fun _ => rfl) (h.range p) (fun _ => hfl)
  rw [Mlfq.giveUp, if_pos hrun]
  refine hset.requeue ?_ ?_
  · rw [setProc_proc_same]; exact hfl
  · rw [setProc_proc_same]; exact hst

omit hrun

/-! ## §3. Processes and interrupts keep it. -/

theorem Inv.enterQueue (hst : (s.proc p).state = .UNUSED) : (s.enterQueue p).Inv :=
  h.put (q := 0) (by decide) (h.idle p (Or.inr hst)) rfl rfl
    ⟨fun hx => (by cases hx), fun hx => (by cases hx)⟩

/-- **Freeing** a slot keeps the invariant if the slot is in no queue. -/
theorem Inv.freeproc (hfl : (s.proc p).qued_fl = false) : (s.freeproc p).Inv :=
  h.setProc hfl.symm (fun hx => by cases hx) ⟨by decide, by decide⟩ (fun _ => rfl)

omit h in
theorem findUnused_some (hp : s.findUnused = some p) : (s.proc p).state = .UNUSED := by
  simpa using List.find?_some hp

theorem Inv.fork {out : ForkOut} (hout : out = .copyfail → s.findUnused = none) : (s.fork out).Inv := by
  rw [Mlfq.fork]
  split
  · exact h
  next p hp =>
  have hst := findUnused_some hp
  cases out with
  | nomem => exact h.freeproc (h.idle p (Or.inr hst))
  | copyfail => rw [hout rfl] at hp; cases hp
  | done => exact h.enterQueue hst

theorem Inv.wakeup (chan : Nat) : (s.wakeup chan).Inv := by
  have hproc : ∀ p, ((s.wakeup chan).proc p).qued_fl = (s.proc p).qued_fl
      ∧ ((s.wakeup chan).proc p).curr_q = (s.proc p).curr_q
      ∧ (((s.wakeup chan).proc p).state = (s.proc p).state
        ∨ ((s.wakeup chan).proc p).state = .RUNNABLE) := by
    intro p
    rw [Mlfq.wakeup]
    dsimp only
    split
    · exact ⟨rfl, rfl, Or.inr rfl⟩
    · exact ⟨rfl, rfl, Or.inl rfl⟩
  refine ⟨⟨h.ok, h.nodup, fun q hq p => ?_, fun p => ?_⟩, fun p hst => ?_⟩
  · rw [(hproc p).1, (hproc p).2.1]
    exact h.mem q hq p
  · rw [(hproc p).2.1]
    exact h.range p
  · rw [(hproc p).1]
    rcases (hproc p).2.2 with hsame | hrun
    · rw [hsame] at hst; exact h.idle p hst
    · rw [hrun] at hst; rcases hst with hst | hst <;> cases hst

theorem Inv.tickOne (p : Slot) : ∃ s', s.tickOne p = .ok s' ∧ s'.Inv := by
  rw [Mlfq.tickOne]
  split
  · next hrun =>
    obtain ⟨q, -, hlevel, -⟩ := h.toPlaced.level_eq p
    rw [hlevel]
    exact ⟨_, rfl, h.setProc rfl (fun _ => rfl) (h.range p) (fun _ => h.idle p (Or.inl hrun))⟩
  · exact ⟨s, rfl, h⟩

theorem Inv.clockintr : ∃ s', s.clockintr = .ok s' ∧ s'.Inv := by
  have hticks : Inv { s with ticks := s.ticks + 1 } := ⟨⟨h.ok, h.nodup, h.mem, h.range⟩, h.idle⟩
  obtain ⟨s₁, hrun, h₁⟩ := foldlM_inv (fun _ p hs => Inv.tickOne hs p) (List.finRange NPROC)
    hticks
  exact ⟨_, by rw [Mlfq.clockintr, hrun]; rfl, h₁.queue_switch.wakeup ticksChan⟩

include hrun

/-- A running process may change its level and its tick count. -/
theorem Inv.setRunning
    (hfl : x.qued_fl = (s.proc p).qued_fl) (hr : 0 ≤ x.curr_q ∧ x.curr_q < MLFQ_LEVELS) : (s.setProc p x).Inv := by
  have hidle := h.idle p (Or.inl hrun)
  rw [hidle] at hfl
  refine h.setProc (by rw [hfl, hidle]) (fun hx => ?_) hr (fun _ => hfl)
  rw [hfl] at hx
  cases hx

omit hrun in
theorem Inv.expired (p : Slot) : ∃ b, s.expired p = .ok b := by
  obtain ⟨q, -, hlevel, -⟩ := h.toPlaced.level_eq p
  exact ⟨_, by rw [Mlfq.expired, hlevel]⟩

theorem Inv.usertrap : ∃ s', s.usertrap p = .ok s' ∧ s'.Inv := by
  have hN : MLFQ_LEVELS = 5 := rfl
  have hr := h.range p
  obtain ⟨b, hb⟩ := h.expired p
  have hstep : s.usertrap p = if b then
      if (s.proc p).curr_q < 4 then
        .ok (s.setProc p { s.proc p with curr_q := (s.proc p).curr_q + 1, cq_rticks := 0 })
      else .ok s
    else .ok s := by
    rw [Mlfq.usertrap, if_neg (not_not_intro hrun), hb]
    rfl
  rw [hstep]
  split
  · split
    · next hlt =>
      exact ⟨_, rfl, h.setRunning hrun rfl (by dsimp only; omega)⟩
    · exact ⟨s, rfl, h⟩
  · exact ⟨s, rfl, h⟩

theorem Inv.kerneltrap : ∃ s', s.kerneltrap p = .ok s' ∧ s'.Inv := by
  have hN : MLFQ_LEVELS = 5 := rfl
  have hr := h.range p
  obtain ⟨b, hb⟩ := h.expired p
  have hstep : s.kerneltrap p = if b then
      let s := if (s.proc p).curr_q < 4 then
        s.setProc p { s.proc p with curr_q := (s.proc p).curr_q + 1 } else s
      .ok (s.setProc p { s.proc p with cq_rticks := 0 })
    else .ok s := by
    rw [Mlfq.kerneltrap, if_neg (not_not_intro hrun), hb]
    rfl
  rw [hstep]
  split
  · split
    · next hlt =>
      refine ⟨_, rfl, ?_⟩
      rw [setProc_setProc]
      refine h.setRunning hrun ?_ ?_
      · rw [setProc_proc_same]
      · rw [setProc_proc_same]; dsimp only; omega
    · exact ⟨_, rfl, h.setRunning hrun rfl hr⟩
  · exact ⟨s, rfl, h⟩

omit hrun

/-! ## §4. A step keeps it. -/

/-- The step does not free a slot that is in a queue: `wait` reaps a zombie
that the scheduler has already taken out, and a fork that found a slot does not fail in
`uvmcopy`. -/
def freesUnqueued (s : Mlfq) : Step → Prop
  | .reap p => (s.proc p).qued_fl = false
  | .fork out => out = .copyfail → s.findUnused = none
  | _ => True

instance (s : Mlfq) (a : Step) : Decidable (s.freesUnqueued a) := by
  unfold freesUnqueued
  split <;> infer_instance

/-- **One step** keeps the invariant, and fails only by not being enabled. -/
theorem Inv.step (a : Step) (hok : s.freesUnqueued a) :
    s.step a = .error .disabled ∨ ∃ s', s.step a = .ok s' ∧ s'.Inv := by
  have hgive : ∀ p st chan, st ≠ .RUNNING ∧ st ≠ .UNUSED →
      s.giveUp p st chan = .error .disabled ∨ ∃ s', s.giveUp p st chan = .ok s' ∧ s'.Inv := by
    intro p st chan hst
    by_cases hrun : (s.proc p).state = .RUNNING
    · exact Or.inr (h.giveUp hrun hst)
    · exact Or.inl (by rw [Mlfq.giveUp, if_neg hrun])
  cases a with
  | fork out => exact Or.inr ⟨_, rfl, h.fork hok⟩
  | ready p =>
    rw [Mlfq.step]
    split
    · refine Or.inr ⟨_, rfl, h.setProc rfl (fun _ => rfl) (h.range p) ?_⟩
      rintro (hst | hst) <;> cases hst
    · exact Or.inl rfl
  | dispatch => exact Or.inr h.dispatch
  | yield p | sleep p chan => exact hgive p _ _ ⟨by decide, by decide⟩
  | exit p =>
    rw [Mlfq.step]
    split
    · exact Or.inl rfl
    · exact hgive p _ _ ⟨by decide, by decide⟩
  | wakeup chan => exact Or.inr ⟨_, rfl, h.wakeup chan⟩
  | kill p =>
    rw [Mlfq.step]
    split
    · refine Or.inr ⟨_, rfl, h.setProc rfl (fun _ => rfl) (h.range p) ?_⟩
      rintro (hst | hst) <;> cases hst
    · exact Or.inr ⟨s, rfl, h⟩
  | clockintr => exact Or.inr h.clockintr
  | usertrap p =>
    by_cases hrun : (s.proc p).state = .RUNNING
    · exact Or.inr (h.usertrap hrun)
    · exact Or.inl (by rw [Mlfq.step, Mlfq.usertrap, if_pos hrun])
  | kerneltrap p =>
    by_cases hrun : (s.proc p).state = .RUNNING
    · exact Or.inr (h.kerneltrap hrun)
    · exact Or.inl (by rw [Mlfq.step, Mlfq.kerneltrap, if_pos hrun])
  | reap p =>
    rw [Mlfq.step]
    split
    · exact Or.inr ⟨_, rfl, h.freeproc hok⟩
    · exact Or.inl rfl

omit h

theorem zero_inv : zero.Inv where
  ok := fun _ _ => Que.empty_ok
  nodup := fun _ _ => by simp [zero]
  mem := fun _ _ _ => by simp [zero]
  range := fun _ => by simp [zero, MLFQ_LEVELS]
  idle := fun _ _ => rfl

theorem boot_inv : boot.Inv := by
  have henter := zero_inv.enterQueue (p := initproc) rfl
  refine henter.setProc rfl (fun _ => rfl) (henter.range initproc) ?_
  rintro (hst | hst) <;> cases hst

/-! ## §5. What membership means. -/

/-- The entries of all queues. -/
def allEntries (s : Mlfq) : List Slot :=
  (List.range MLFQ_LEVELS).flatMap fun q => (s.mlfqs q).entries

include h

theorem Inv.once : s.allEntries.Nodup := by
  refine List.nodup_flatMap.mpr ⟨fun q hq => h.nodup q (List.mem_range.mp hq), ?_⟩
  refine List.nodup_range.pairwise_of_forall_ne ?_
  intro q hq q' hq' hne p hp hp'
  -- the level of an entry is its `curr_q`
  have hc := ((h.mem q (List.mem_range.mp hq) p).mp hp).2
  have hc' := ((h.mem q' (List.mem_range.mp hq') p).mp hp').2
  exact hne (by exact_mod_cast hc.symm.trans hc')

theorem Inv.queued (p : Slot) : (∃ q < MLFQ_LEVELS, p ∈ (s.mlfqs q).entries) ↔ (s.proc p).qued_fl = true := by
  constructor
  · rintro ⟨q, hq, hp⟩
    exact ((h.mem q hq p).mp hp).1
  · intro hfl
    obtain ⟨q, hq, -, hcq⟩ := h.toPlaced.level_eq p
    exact ⟨q, hq, (h.mem q hq p).mpr ⟨hfl, hcq⟩⟩

theorem Inv.live (hq : q < MLFQ_LEVELS) (hp : p ∈ (s.mlfqs q).entries) :
    (s.proc p).state ≠ .UNUSED ∧ (s.proc p).curr_q = q := by
  obtain ⟨hfl, hcq⟩ := (h.mem q hq p).mp hp
  refine ⟨fun hst => ?_, hcq⟩
  rw [h.idle p (Or.inr hst)] at hfl
  cases hfl

omit h

end Mlfq

end Xv6
