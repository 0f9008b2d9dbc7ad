/-
  Xv6.Sched.MlfqPick — which process a round of `mlfq_scheduler` dispatches
  (`kernel/proc.c`).

  A round ages the queues, queues what is RUNNABLE and not queued, and pops
  the levels from 0 up until it finds a RUNNABLE process.  Aging and queueing
  change no state; after them every RUNNABLE process is in the queue of its
  level, so the search finds one exactly if there is one.

  Main results:
    * `Placed.popLevel` — what the search of one level does,
    * `picks_first` — a round from any state in which the records of
      membership agree,
    * `stray_level` — a level out of range ends the round instead.
-/
import Xv6.Sched.MlfqInv

namespace Xv6

namespace Mlfq

variable {s s' : Mlfq} {p : Slot} {q : Nat}

/-- The process may be dispatched. -/
def Runnable (s : Mlfq) (p : Slot) : Prop := (s.proc p).state = .RUNNABLE

/-! ## §1. The sweep that queues processes. -/

/-- What queueing leaves: the states, the levels, and what was queued. -/
structure Swept (s s' : Mlfq) : Prop where
  state : ∀ p, (s'.proc p).state = (s.proc p).state
  level : ∀ p, (s'.proc p).curr_q = (s.proc p).curr_q
  flag : ∀ p, (s.proc p).qued_fl = true → (s'.proc p).qued_fl = true

theorem Swept.refl (s : Mlfq) : Swept s s := ⟨fun _ => rfl, fun _ => rfl, fun _ h => h⟩

variable {s₁ s₂ s₃ : Mlfq}

theorem Swept.trans (h : Swept s₁ s₂) (h' : Swept s₂ s₃) : Swept s₁ s₃ :=
  ⟨fun p => (h'.state p).trans (h.state p), fun p => (h'.level p).trans (h.level p), fun p hp => h'.flag p (h.flag p hp)⟩

/-- One turn of the sweep. -/
theorem Placed.enqueue (h : s.Placed) (p : Slot) :
    ∃ s', s.enqueue p = .ok s' ∧ s'.Placed ∧ Swept s s' ∧ (s.Runnable p → (s'.proc p).qued_fl = true) := by
  unfold Mlfq.enqueue
  split
  · rename_i hc
    obtain ⟨q, hq, hlevel, hcq⟩ := h.level_eq p
    let x := { s.proc p with q_enter_time := s.ticks.toUInt64, cq_rticks := 0, qued_fl := true }
    have hrun : s.requeue p = .ok ((s.setProc p x).push q p) := by rw [Mlfq.requeue, hlevel]
    have hproc : ∀ p', ((s.setProc p x).push q p).proc p' = if p' = p then x else s.proc p' := by
      intro p'
      by_cases hp : p' = p
      · rw [if_pos hp, hp]
        exact setProc_proc_same s p x
      · rw [if_neg hp]
        exact setProc_proc_ne s x hp
    refine ⟨_, hrun, h.put hq hc.2 rfl hcq, ⟨?_, ?_, ?_⟩, fun _ => ?_⟩
    · intro p'
      rw [hproc]
      split
      · rename_i hp
        rw [hp]
      · rfl
    · intro p'
      rw [hproc]
      split
      · rename_i hp
        rw [hp]
      · rfl
    · intro p' hfl
      rw [hproc]
      split
      · rfl
      · exact hfl
    · rw [hproc, if_pos rfl]
  · rename_i hc
    refine ⟨s, rfl, h, Swept.refl s, fun hp => ?_⟩
    by_contra hfl
    exact hc ⟨hp, Bool.eq_false_iff.mpr hfl⟩

/-- **The sweep**, by induction on the slots it goes over. -/
theorem Placed.sweep (ps : List Slot) :
    ∀ {s : Mlfq}, s.Placed → ∃ s', ps.foldlM Mlfq.enqueue s = .ok s' ∧ s'.Placed ∧ Swept s s'
      ∧ ∀ p ∈ ps, s.Runnable p → (s'.proc p).qued_fl = true := by
  induction ps with
  | nil => exact fun h => ⟨_, rfl, h, Swept.refl _, fun _ hp => nomatch hp⟩
  | cons p ps ih =>
    intro s h
    obtain ⟨s₁, hrun, h₁, hsw₁, hp₁⟩ := h.enqueue p
    obtain ⟨s₂, hrest, h₂, hsw₂, hps₂⟩ := ih h₁
    refine ⟨s₂, by rw [List.foldlM_cons, hrun]; exact hrest, h₂, hsw₁.trans hsw₂, fun p' hp' hr => ?_⟩
    rcases List.mem_cons.mp hp' with rfl | hp'
    · exact hsw₂.flag _ (hp₁ hr)
    · exact hps₂ p' hp' ((hsw₁.state p').trans hr)

/-! ## §2. The search of one level. -/

/-- `out` was popped from level `q`, front first. -/
structure Popped (q : Nat) (s s' : Mlfq) (out : List Slot) : Prop where
  entries : (s.mlfqs q).entries = out ++ (s'.mlfqs q).entries
  other : ∀ q', q' ≠ q → s'.mlfqs q' = s.mlfqs q'
  proc : ∀ p, s'.proc p = if p ∈ out then { s.proc p with qued_fl := false } else s.proc p
  placed : s'.Placed

theorem Popped.refl (h : s.Placed) : Popped q s s [] :=
  ⟨rfl, fun _ _ => rfl, fun _ => rfl, h⟩

variable {out : List Slot}

theorem Popped.trans {out' : List Slot} (h : Popped q s₁ s₂ out) (h' : Popped q s₂ s₃ out') :
    Popped q s₁ s₃ (out ++ out') := by
  refine ⟨?_, fun q' hq' => (h'.other q' hq').trans (h.other q' hq'), fun p => ?_, h'.placed⟩
  · rw [h.entries, h'.entries, List.append_assoc]
  rw [h'.proc p, h.proc p]
  by_cases hout : p ∈ out
  · rw [if_pos hout, if_pos (List.mem_append_left _ hout), ite_self]
  · rw [if_neg hout]
    by_cases hout' : p ∈ out'
    · rw [if_pos hout', if_pos (List.mem_append_right _ hout')]
    · rw [if_neg hout', if_neg (fun hmem => (List.mem_append.mp hmem).elim hout hout')]

/-- Popping changes no state. -/
theorem Popped.runnable (h : Popped q s s' out) (p : Slot) : s'.Runnable p ↔ s.Runnable p := by
  unfold Runnable
  rw [h.proc p]
  split
  · rfl
  · rfl

/-- The front is popped. -/
theorem Placed.popFront (h : s.Placed) (hq : q < MLFQ_LEVELS) {que : Que} (hpop : que_pop (s.mlfqs q) = (que, some p)) :
    Popped q s ((s.setQue q que).setProc p { s.proc p with qued_fl := false }) [p] := by
  obtain ⟨-, htail, hhead⟩ := que_pop_entries (h.ok q hq)
  rw [hpop] at htail hhead
  have hcons : (s.mlfqs q).entries = p :: que.entries := by
    cases he : (s.mlfqs q).entries with
    | nil =>
      rw [he] at hhead
      cases hhead
    | cons a l =>
      rw [he] at hhead htail
      rw [htail, Option.some.inj hhead]
      rfl
  have htake := h.take hq hhead.symm (x := { s.proc p with qued_fl := false }) rfl (h.range p)
  have hpopped : s.pop q = s.setQue q que := by rw [pop, hpop]
  rw [hpopped] at htake
  refine ⟨?_, fun q' hq' => setQue_mlfqs_ne s que hq', fun p' => ?_, htake⟩
  · rw [setProc_mlfqs, setQue_mlfqs_same, hcons]
    rfl
  · by_cases hp : p' = p
    · subst hp
      rw [setProc_proc_same, if_pos List.mem_cons_self]
    · rw [setProc_proc_ne _ _ hp, if_neg (fun hmem => hp (List.mem_singleton.mp hmem))]
      rfl

/-- **The search of one level**, by induction on its turns: what is popped in vain is not RUNNABLE. -/
theorem Placed.popLevel (hq : q < MLFQ_LEVELS) (k : Nat) : ∀ {s : Mlfq}, s.Placed → (s.mlfqs q).entries.length ≤ k →
      ∃ out, (∀ x ∈ out, ¬ s.Runnable x) ∧
        ((∃ s', Mlfq.popLevel q k s = (s', none) ∧ Popped q s s' out ∧ (s'.mlfqs q).entries = [])
          ∨ ∃ s' p, Mlfq.popLevel q k s = (s', some p) ∧ Popped q s s' (out ++ [p]) ∧ s.Runnable p) := by
  induction k with
  | zero =>
    intro s h hk
    have hnil := List.eq_nil_of_length_eq_zero (Nat.le_zero.mp hk)
    exact ⟨[], fun _ hx => (nomatch hx), .inl ⟨s, rfl, Popped.refl h, hnil⟩⟩
  | succ k ih =>
    intro s h hk
    rw [Mlfq.popLevel]
    split
    · rename_i que hpop
      -- the queue is empty
      refine ⟨[], fun _ hx => (nomatch hx), .inl ⟨s, rfl, Popped.refl h, ?_⟩⟩
      obtain ⟨-, -, hhead⟩ := que_pop_entries (h.ok q hq)
      rw [hpop] at hhead
      exact List.head?_eq_none_iff.mp hhead.symm
    rename_i que p hpop
    have hone := h.popFront hq hpop
    dsimp only
    split
    · rename_i hst
      rw [setProc_proc_same] at hst
      exact ⟨[], fun _ hx => (nomatch hx), .inr ⟨_, p, rfl, hone, hst⟩⟩
    rename_i hst
    rw [setProc_proc_same] at hst
    have hlen := congrArg List.length hone.entries
    rw [List.length_append, List.length_singleton] at hlen
    obtain ⟨out, hout, hres⟩ := ih hone.placed (by omega)
    refine ⟨p :: out, fun x hx => ?_, ?_⟩
    · rcases List.mem_cons.mp hx with rfl | hx
      · exact hst
      · exact fun hr => hout x hx ((hone.runnable x).mpr hr)
    · rcases hres with ⟨s', hrun, hpopped, hnil⟩ | ⟨s', p', hrun, hpopped, hr⟩
      · exact .inl ⟨s', hrun, hone.trans hpopped, hnil⟩
      · exact .inr ⟨s', p', hrun, hone.trans hpopped, (hone.runnable p').mp hr⟩

/-! ## §3. The search of all levels. -/

/-- Popping clears flags and changes nothing else of a process. -/
structure Drained (s s' : Mlfq) : Prop where
  state : ∀ p, (s'.proc p).state = (s.proc p).state
  level : ∀ p, (s'.proc p).curr_q = (s.proc p).curr_q
  flag : ∀ p, (s.proc p).qued_fl = false → (s'.proc p).qued_fl = false

theorem Drained.trans (h : Drained s₁ s₂) (h' : Drained s₂ s₃) : Drained s₁ s₃ :=
  ⟨fun p => (h'.state p).trans (h.state p), fun p => (h'.level p).trans (h.level p), fun p hp => h'.flag p (h.flag p hp)⟩

theorem Popped.drained (h : Popped q s s' out) : Drained s s' := by
  constructor
  · intro p
    rw [h.proc p]
    split
    · rfl
    · rfl
  · intro p
    rw [h.proc p]
    split
    · rfl
    · rfl
  · intro p hp
    rw [h.proc p]
    split
    · rfl
    · exact hp

/-- What was popped has its flag cleared. -/
theorem Popped.cleared (h : Popped q s s' out) (hp : p ∈ out) : (s'.proc p).qued_fl = false := by
  rw [h.proc p, if_pos hp]

/-- An entry dropped by the search. -/
def Dropped (s s' : Mlfq) (x : Slot) : Prop := ¬ s.Runnable x ∧ (s'.proc x).qued_fl = false

/-- Level `q` was searched in vain. -/
def Emptied (s s' : Mlfq) (q : Nat) : Prop :=
  (s'.mlfqs q).entries = [] ∧ ∀ x ∈ (s.mlfqs q).entries, Dropped s s' x

/-- The search from level `a` on stops at the first RUNNABLE entry of level `q`, `p`. -/
structure Found (a : Nat) (s s' : Mlfq) (q : Nat) (p : Slot) : Prop where
  range : a ≤ q ∧ q < MLFQ_LEVELS
  runnable : s.Runnable p
  flag : (s'.proc p).qued_fl = false
  /-- `p` is the first RUNNABLE one of its queue, and what stood before it was dropped -/
  first : ∃ pre, (s.mlfqs q).entries = pre ++ p :: (s'.mlfqs q).entries ∧ ∀ x ∈ pre, Dropped s s' x
  above : ∀ q', a ≤ q' → q' < q → Emptied s s' q'
  below : ∀ q', q < q' → s'.mlfqs q' = s.mlfqs q'

/-- What the search of a first level and of the later ones leave together. -/
theorem Emptied.later (h : Emptied s s₁ q) (hsame : s'.mlfqs q = s₁.mlfqs q) (hdr : Drained s₁ s') : Emptied s s' q := by
  refine ⟨by rw [hsame, h.1], fun x hx => ?_⟩
  obtain ⟨hnot, hfl⟩ := h.2 x hx
  exact ⟨hnot, hdr.flag x hfl⟩

/-- A later level, searched after the earlier ones. -/
theorem Emptied.earlier (h : Emptied s₁ s' q) (hsame : s₁.mlfqs q = s.mlfqs q) (hdr : Drained s s₁) : Emptied s s' q := by
  refine ⟨h.1, fun x hx => ?_⟩
  rw [← hsame] at hx
  obtain ⟨hnot, hfl⟩ := h.2 x hx
  exact ⟨fun hr => hnot ((hdr.state x).trans hr), hfl⟩

/-- The level before was searched in vain. -/
theorem Found.cons {a : Nat} (h : Found (a + 1) s₁ s' q p) (hpop : Popped a s s₁ out)
    (hemp : Emptied s s' a) : Found a s s' q p := by
  have hdr := hpop.drained
  have hsame : ∀ q', a + 1 ≤ q' → s₁.mlfqs q' = s.mlfqs q' := fun q' hq' => hpop.other q' (by omega)
  refine ⟨⟨by have := h.range.1; omega, h.range.2⟩, (hpop.runnable p).mp h.runnable, h.flag, ?_, ?_, ?_⟩
  · obtain ⟨pre, hsplit, hpre⟩ := h.first
    rw [hsame q h.range.1] at hsplit
    refine ⟨pre, hsplit, fun x hx => ?_⟩
    obtain ⟨hnot, hfl⟩ := hpre x hx
    exact ⟨fun hr => hnot ((hdr.state x).trans hr), hfl⟩
  · intro q' ha hq'
    by_cases hqa : q' = a
    · rw [hqa]
      exact hemp
    · exact (h.above q' (by omega) hq').earlier (hsame q' (by omega)) hdr
  · intro q' hq'
    rw [h.below q' hq', hsame q' (by have := h.range.1; omega)]

/-- **The search of the levels** `a, a+1, ..`, by induction on how many there are. -/
theorem Placed.popLevels (n : Nat) : ∀ {a : Nat} {s : Mlfq}, s.Placed → a + n ≤ MLFQ_LEVELS →
      ∃ s', s'.Placed ∧ Drained s s' ∧ (∀ q, q < a → s'.mlfqs q = s.mlfqs q) ∧
        ((Mlfq.popLevels (List.range' a n) s = (s', none) ∧ ∀ q, a ≤ q → q < a + n → Emptied s s' q)
          ∨ ∃ q p, Mlfq.popLevels (List.range' a n) s = (s', some p) ∧ Found a s s' q p) := by
  induction n with
  | zero =>
    intro a s h _
    refine ⟨s, h, ⟨fun _ => rfl, fun _ => rfl, fun _ hp => hp⟩, fun _ _ => rfl, .inl ⟨rfl, fun q hq hq' => ?_⟩⟩
    omega
  | succ n ih =>
    intro a s h hn
    have ha : a < MLFQ_LEVELS := by omega
    obtain ⟨out, hout, hres⟩ := Placed.popLevel ha (s.mlfqs a).size h (by rw [Que.entries_length])
    rw [List.range'_succ, Mlfq.popLevels]
    rcases hres with ⟨s₁, hrun, hpop, hnil⟩ | ⟨s₁, p, hrun, hpop, hr⟩
    · -- nothing RUNNABLE at level `a`
      have hent := hpop.entries
      rw [hnil, List.append_nil] at hent
      have hemp : Emptied s s₁ a := by
        refine ⟨hnil, fun x hx => ?_⟩
        rw [hent] at hx
        exact ⟨hout x hx, hpop.cleared hx⟩
      obtain ⟨s', h', hdr, hkeep, hres⟩ := ih hpop.placed (a := a + 1) (by omega)
      have hemp' : Emptied s s' a := hemp.later (hkeep a (by omega)) hdr
      refine ⟨s', h', hpop.drained.trans hdr, fun q hq => ?_, ?_⟩
      · rw [hkeep q (by omega), hpop.other q (by omega)]
      rw [hrun]
      rcases hres with ⟨hnone, hall⟩ | ⟨q, p, hsome, hfound⟩
      · refine .inl ⟨hnone, fun q hq hq' => ?_⟩
        by_cases hqa : q = a
        · rw [hqa]
          exact hemp'
        · exact (hall q (by omega) (by omega)).earlier (hpop.other q hqa) hpop.drained
      · exact .inr ⟨q, p, hsome, hfound.cons hpop hemp'⟩
    · refine ⟨s₁, hpop.placed, hpop.drained, fun q hq => hpop.other q (by omega), .inr ⟨a, p, by rw [hrun], ?_⟩⟩
      refine ⟨⟨le_rfl, ha⟩, hr, hpop.cleared (by simp), ⟨out, ?_, fun x hx => ?_⟩, fun q' hq hq' => ?_, fun q' hq' => ?_⟩
      · rw [hpop.entries, List.append_assoc]
        rfl
      · exact ⟨hout x hx, hpop.cleared (List.mem_append_left _ hx)⟩
      · omega
      · exact hpop.other q' (by omega)

/-! ## §4. A round. -/

/-- The round from `s` to `s'` dispatches `p`. -/
structure Dispatched (s s' : Mlfq) (p : Slot) : Prop where
  before : s.Runnable p
  after : (s'.proc p).state = .RUNNING
  others : ∀ p', p' ≠ p → (s'.proc p').state = (s.proc p').state

/-- Aging and queueing change no state, and queue every RUNNABLE process. -/
theorem Placed.prepared (h : s.Placed) :
    ∃ s₁, (List.finRange NPROC).foldlM Mlfq.enqueue s.queue_switch = .ok s₁ ∧ s₁.Placed
      ∧ (∀ p, (s₁.proc p).state = (s.proc p).state) ∧ ∀ p, s.Runnable p → (s₁.proc p).qued_fl = true := by
  obtain ⟨s₁, hrun, h₁, hsw, hall⟩ := Placed.sweep (List.finRange NPROC) h.queue_switch
  have hsame := sameFlags_queue_switch s
  refine ⟨s₁, hrun, h₁, fun p => (hsw.state p).trans (hsame p).1, fun p hp => ?_⟩
  exact hall p (List.mem_finRange p) ((hsame p).1.trans hp)

theorem dispatch_none (hprep : (List.finRange NPROC).foldlM Mlfq.enqueue s.queue_switch = .ok s₁)
    (hpop : Mlfq.popLevels [0, 1, 2, 3, 4] s₁ = (s₂, none)) : s.dispatch = .ok s₂ := by
  simp only [dispatch, schedule, hprep, bind, Except.bind, hpop]
  rfl

theorem dispatch_some (hprep : (List.finRange NPROC).foldlM Mlfq.enqueue s.queue_switch = .ok s₁)
    (hpop : Mlfq.popLevels [0, 1, 2, 3, 4] s₁ = (s₂, some p)) :
    s.dispatch = .ok (s₂.setProc p { s₂.proc p with state := .RUNNING }) := by
  simp only [dispatch, schedule, hprep, bind, Except.bind, hpop]
  rfl

/-- **What a round dispatches**: a process exactly if one is RUNNABLE; and if so the first RUNNABLE one of the lowest
level that has any, dropping what it pops before it. -/
theorem picks_first (h : s.Placed) :
    ∃ s₁ s', (List.finRange NPROC).foldlM Mlfq.enqueue s.queue_switch = .ok s₁ ∧ s.dispatch = .ok s' ∧ s'.Placed ∧
      ((∃ p, Dispatched s s' p) ↔ ∃ p, s.Runnable p) ∧ ∀ p, Dispatched s s' p →
        (∀ p', s.Runnable p' → (s₁.proc p).curr_q ≤ (s₁.proc p').curr_q) ∧
        (∃ q : Nat, (s₁.proc p).curr_q = q ∧ Found 0 s₁ s' q p) ∧ ∀ q, q < MLFQ_LEVELS → p ∉ (s'.mlfqs q).entries := by
  obtain ⟨s₁, hprep, h₁, hst₁, hfl₁⟩ := h.prepared
  -- a RUNNABLE process is in the queue of its level
  have hqueued : ∀ p', s.Runnable p' → ∃ q, q < MLFQ_LEVELS ∧ (s₁.proc p').curr_q = q ∧ p' ∈ (s₁.mlfqs q).entries := by
    intro p' hp'
    obtain ⟨q, hq, -, hcq⟩ := h₁.level_eq p'
    exact ⟨q, hq, hcq, (h₁.mem q hq p').mpr ⟨hfl₁ p' hp', hcq⟩⟩
  obtain ⟨s₂, h₂, hdr, -, hres⟩ := Placed.popLevels 5 (a := 0) h₁ (by decide)
  have hst₂ : ∀ p, (s₂.proc p).state = (s.proc p).state := fun p => (hdr.state p).trans (hst₁ p)
  rcases hres with ⟨hnone, hall⟩ | ⟨q, p, hsome, hfound⟩
  · have hno : ∀ p, ¬ s.Runnable p := by
      intro p hp
      obtain ⟨q, hq, -, hmem⟩ := hqueued p hp
      exact ((hall q (Nat.zero_le q) (by rw [Nat.zero_add]; exact hq)).2 p hmem).1 ((hst₁ p).trans hp)
    refine ⟨s₁, s₂, hprep, ?_, h₂, ⟨fun ⟨p, hp⟩ => ⟨p, hp.before⟩, fun ⟨p, hp⟩ => absurd hp (hno p)⟩, ?_⟩
    · exact dispatch_none hprep hnone
    · exact fun p hp => absurd hp.before (hno p)
  have hp : s.Runnable p := (hst₁ p).symm.trans hfound.runnable
  let x := { s₂.proc p with state := .RUNNING }
  have hproc : ∀ p', ((s₂.setProc p x).proc p').qued_fl = (s₂.proc p').qued_fl := by
    intro p'
    by_cases hpp : p' = p
    · rw [hpp, setProc_proc_same]
    · rw [setProc_proc_ne _ _ hpp]
  have hlast : Found 0 s₁ (s₂.setProc p x) q p := by
    refine ⟨hfound.range, hfound.runnable, (hproc p).trans hfound.flag, ?_, fun q' hq hq' => ?_, hfound.below⟩
    · obtain ⟨pre, hsplit, hpre⟩ := hfound.first
      exact ⟨pre, hsplit, fun x hx => ⟨(hpre x hx).1, (hproc x).trans (hpre x hx).2⟩⟩
    · have hemp := hfound.above q' hq hq'
      exact ⟨hemp.1, fun x hx => ⟨(hemp.2 x hx).1, (hproc x).trans (hemp.2 x hx).2⟩⟩
  have hdisp : Dispatched s (s₂.setProc p x) p := by
    refine ⟨hp, by rw [setProc_proc_same], fun p' hp' => ?_⟩
    rw [setProc_proc_ne _ _ hp', hst₂]
  have hplaced : (s₂.setProc p x).Placed := h₂.setProc rfl (fun _ => rfl) (h₂.range p)
  refine ⟨s₁, s₂.setProc p x, hprep, ?_, hplaced, ⟨fun _ => ⟨p, hp⟩, fun _ => ⟨p, hdisp⟩⟩, fun p' hp' => ?_⟩
  · exact dispatch_some hprep hsome
  -- only one process changes its state
  have hpp : p' = p := by
    by_contra hne
    have hrun := hp'.after
    rw [hdisp.others p' hne, hp'.before] at hrun
    cases hrun
  subst hpp
  have hcq : (s₁.proc p').curr_q = q := by
    obtain ⟨pre, hsplit, -⟩ := hfound.first
    exact ((h₁.mem q hfound.range.2 p').mp (by rw [hsplit]; simp)).2
  refine ⟨fun p₂ hp₂ => ?_, ⟨q, hcq, hlast⟩, fun q' hq' hmem => ?_⟩
  · -- a lower level was searched in vain
    obtain ⟨q₂, -, hcq₂, hmem⟩ := hqueued p₂ hp₂
    by_contra hlt
    have hemp := hfound.above q₂ (Nat.zero_le _) (by omega)
    exact (hemp.2 p₂ hmem).1 ((hst₁ p₂).trans hp₂)
  · have hfl := ((hplaced.mem q' hq' p').mp hmem).1
    rw [hlast.flag] at hfl
    cases hfl

/-- `p` in state `st` enters the queue of level `q` at time `t`. -/
def place (s : Mlfq) (p : Slot) (st : ProcState) (q : Nat) (t : UInt64) : Mlfq :=
  (s.setProc p { s.proc p with state := st, curr_q := q, q_enter_time := t, qued_fl := true }).push q p

/-- At tick 40 slots 1 and 2 sleep in the queues of levels 0 and 1; level 2 has slot 4, which has aged, and slot 5; slot 6
is RUNNABLE and not queued. -/
def crowded : Mlfq :=
  let s := (((zero.place 1 .SLEEPING 0 40).place 2 .SLEEPING 1 40).place 4 .RUNNABLE 2 0).place 5 .RUNNABLE 2 20
  { s.setProc 6 { s.proc 6 with state := .RUNNABLE, curr_q := 3 } with ticks := 40 }

theorem crowded_placed : crowded.Placed where
  ok q hq := by
    have hlevels : q = 0 ∨ q = 1 ∨ q = 2 ∨ q = 3 ∨ q = 4 := by
      unfold MLFQ_LEVELS at hq
      omega
    rcases hlevels with rfl | rfl | rfl | rfl | rfl
    · exact (que_push_entries Que.empty_ok (by decide) 1).1
    · exact (que_push_entries Que.empty_ok (by decide) 2).1
    · exact (que_push_entries (que_push_entries Que.empty_ok (by decide) 4).1 (by decide) 5).1
    · exact Que.empty_ok
    · exact Que.empty_ok
  nodup := by decide +kernel
  mem := by decide +kernel
  range := by decide +kernel

/-- Slot 4 is moved up to level 1, and found there behind the sleepers, which leave their queues. -/
theorem picks_first_crowded : crowded.Placed ∧ ∃ s', crowded.dispatch = .ok s' ∧ s'.Placed ∧ Dispatched crowded s' 4
    ∧ (s'.proc 4).curr_q = 1 ∧ (s'.mlfqs 0).entries = [] ∧ (s'.mlfqs 1).entries = [] ∧ (s'.mlfqs 2).entries = [5]
    ∧ (s'.mlfqs 3).entries = [6] ∧ (s'.proc 1).qued_fl = false ∧ ∀ q, q < MLFQ_LEVELS → 4 ∉ (s'.mlfqs q).entries := by
  obtain ⟨s₁, s', -, hrun, h', hiff, hall⟩ := picks_first crowded_placed
  obtain ⟨p, hp⟩ := hiff.mpr ⟨4, rfl⟩
  have hend : (match crowded.dispatch with
      | .ok s' => decide ((s'.proc 4).state = .RUNNING ∧ (s'.proc 4).curr_q = 1 ∧ (s'.mlfqs 0).entries = []
          ∧ (s'.mlfqs 1).entries = [] ∧ (s'.mlfqs 2).entries = [5] ∧ (s'.mlfqs 3).entries = [6] ∧ (s'.proc 1).qued_fl = false)
      | .error _ => false) = true := by decide +kernel
  rw [hrun] at hend
  obtain ⟨hst, hlevel, h0, h1, h2, h3, hdropped⟩ := of_decide_eq_true hend
  -- only one process changes its state
  have hp4 : p = 4 := by
    by_contra hne
    have hsame := hp.others 4 (Ne.symm hne)
    rw [hst] at hsame
    cases hsame
  subst hp4
  exact ⟨crowded_placed, s', hrun, h', hp, hlevel, h0, h1, h2, h3, hdropped, (hall 4 hp).2.2⟩

/-- A process outside the queues with `curr_q` past the last level. -/
def stray : Mlfq := zero.setProc 3 { zero.proc 3 with state := .RUNNABLE, curr_q := 5 }

/-- **A level out of range**: the records of membership agree and a process is RUNNABLE, but the round indexes `mlfqs`
past its end. -/
theorem stray_level :
    (∀ p, (stray.proc p).qued_fl = false) ∧ (∀ q, q < MLFQ_LEVELS → (stray.mlfqs q).Ok ∧ (stray.mlfqs q).entries = [])
      ∧ stray.Runnable 3 ∧ stray.dispatch = .error .bounds := by
  refine ⟨by decide, fun q _ => ⟨Que.empty_ok, rfl⟩, rfl, ?_⟩
  rfl

end Mlfq

end Xv6
