/-
  Xv6.Sched.QueueSwitch — which processes one call of `queue_switch` moves up
  (`kernel/proc.c`).

  The while loop on a level stops at the first entry that is not RUNNABLE or
  has not waited for more than 30 ticks: it moves the aged entries at the
  front of the level (`agedFront`), and none behind them.  The levels are
  visited upwards, so what is moved to level `q - 1` is not looked at again.

    * `Passed` — the while loop on one level (`switchLevel_passed`),
    * `Upto`   — the levels 1..n, by induction on `n` (`passes_upto`),
    * `aging_reaches` — every aged process is moved, if none stands behind
      one that has not aged; `sleeper_in_front` is a state where one does.
-/
import Xv6.Sched.Aging

namespace Xv6

/-- What a promotion makes of a process. -/
def MProc.promoted (x : MProc) : MProc := { x with curr_q := x.curr_q - 1, cq_rticks := 0 }

namespace Mlfq

variable {s s₁ s₂ s' : Mlfq} {p : Slot} {q n : Nat}

/-! ## §1. Well-formed queues. -/

/-- No process is entered twice, and every entry stands at the level of its process. -/
structure WellQueued (s : Mlfq) : Prop extends Sound s where
  level : ∀ q, q < MLFQ_LEVELS → ∀ p ∈ (s.mlfqs q).entries, (s.proc p).curr_q = q

/-- Queued at one of the levels 1..4, RUNNABLE, and waiting for more than 30 ticks. -/
def Starved (s : Mlfq) (p : Slot) : Prop :=
  ∃ q, 0 < q ∧ q < MLFQ_LEVELS ∧ p ∈ (s.mlfqs q).entries ∧ s.aged p = true

/-- No aged entry of level `q` stands behind one that has not aged. -/
def AgedFirst (s : Mlfq) (q : Nat) : Prop := ∀ p ∈ (s.mlfqs q).entries.dropWhile s.aged, s.aged p = false

/-- The entries that the while loop on level `q` moves. -/
def agedFront (s : Mlfq) (q : Nat) : List Slot := (s.mlfqs q).entries.takeWhile s.aged

theorem mem_of_agedFront (h : p ∈ s.agedFront q) : p ∈ (s.mlfqs q).entries ∧ s.aged p = true :=
  ⟨(List.takeWhile_sublist s.aged).subset h, List.all_eq_true.mp (List.all_takeWhile) p h⟩

theorem Sound.nodup_level (h : s.Sound) (hq : q < MLFQ_LEVELS) : (s.mlfqs q).entries.Nodup :=
  (List.nodup_flatMap.mp h.nodup).1 q (List.mem_range.mpr hq)

theorem Sound.disjoint_levels (h : s.Sound) {q' : Nat} (hlt : q < q') (hq' : q' < MLFQ_LEVELS) :
    (s.mlfqs q).entries.Disjoint (s.mlfqs q').entries := by
  have hpair := List.pairwise_iff_getElem.mp (List.nodup_flatMap.mp h.nodup).2 q q'
    (by rw [List.length_range]; omega) (by rw [List.length_range]; omega) hlt
  rw [List.getElem_range, List.getElem_range] at hpair
  exact hpair

/-- A process is entered at one level only. -/
theorem Sound.level_unique (h : s.Sound) {q' : Nat} (hq : q < MLFQ_LEVELS) (hq' : q' < MLFQ_LEVELS)
    (hp : p ∈ (s.mlfqs q).entries) (hp' : p ∈ (s.mlfqs q').entries) : q = q' := by
  rcases Nat.lt_trichotomy q q' with hlt | heq | hgt
  · exact absurd hp' (h.disjoint_levels hlt hq' hp)
  · exact heq
  · exact absurd hp (h.disjoint_levels hgt hq hp')

/-! ## §2. One level. -/

theorem promote_proc (s : Mlfq) (q : Nat) (p p' : Slot) :
    (s.promote q p).proc p' = if p' = p then (s.proc p).promoted else s.proc p' := by
  by_cases hp : p' = p
  · rw [if_pos hp, hp]
    exact setProc_proc_same ..
  · rw [if_neg hp]
    exact setProc_proc_ne _ _ hp

/-- Aging does not change who has aged. -/
theorem aged_congr (hticks : s'.ticks = s.ticks) (hproc : s'.proc p = s.proc p ∨ s'.proc p = (s.proc p).promoted) :
    s'.aged p = s.aged p := by
  unfold aged
  rw [hticks]
  rcases hproc with hsame | hup
  · rw [hsame]
  · rw [hup]
    rfl

theorem promote_aged (s : Mlfq) (q : Nat) (p : Slot) : (s.promote q p).aged = s.aged := by
  funext p'
  refine aged_congr rfl ?_
  rw [promote_proc]
  split
  · rename_i hp
    rw [hp]
    exact .inr rfl
  · exact .inl rfl

/-- What the while loop on level `q` does. -/
structure Passed (s s' : Mlfq) (q : Nat) : Prop where
  sound : s'.Sound
  ticks : s'.ticks = s.ticks
  proc : ∀ p, s'.proc p = if p ∈ s.agedFront q then (s.proc p).promoted else s.proc p
  source : (s'.mlfqs q).entries = (s.mlfqs q).entries.dropWhile s.aged
  target : (s'.mlfqs (q - 1)).entries = (s.mlfqs (q - 1)).entries ++ s.agedFront q
  rest : ∀ q', q' ≠ q → q' ≠ q - 1 → s'.mlfqs q' = s.mlfqs q'

/-- The front has not aged. -/
theorem Passed.refl (h : s.Sound) (hnone : s.agedFront q = []) : Passed s s q where
  sound := h
  ticks := rfl
  proc := fun p => by rw [hnone, if_neg List.not_mem_nil]
  source := by
    have hsplit := List.takeWhile_append_dropWhile (p := s.aged) (l := (s.mlfqs q).entries)
    rw [show (s.mlfqs q).entries.takeWhile s.aged = [] from hnone, List.nil_append] at hsplit
    exact hsplit.symm
  target := by rw [hnone, List.append_nil]
  rest := fun _ _ _ => rfl

/-- **A turn of the loop**: the front has aged, and the rest of the level is passed. -/
theorem Passed.cons {l : List Slot} (h : s.Sound) (hq : q < MLFQ_LEVELS) (hpos : 0 < q)
    (hfront : (s.mlfqs q).entries = p :: l) (haged : s.aged p = true) (hrest : Passed (s.promote q p) s' q) : Passed s s' q := by
  obtain ⟨-, hat, -, hbelow, hother⟩ := promote_entries h hq hpos hfront
  have hnodup := h.nodup_level hq
  rw [hfront] at hnodup
  have hsplit : s.agedFront q = p :: (s.promote q p).agedFront q := by
    unfold agedFront
    rw [hfront, hat, promote_aged, List.takeWhile_cons_of_pos haged]
  refine ⟨hrest.sound, hrest.ticks, fun p' => ?_, ?_, ?_, fun q' hq₁ hq₂ => ?_⟩
  · rw [hrest.proc p', hsplit, promote_proc]
    by_cases hp : p' = p
    · -- the process moved is not entered a second time
      have hnot : p' ∉ (s.promote q p).agedFront q := by
        intro hmem
        have hl := (mem_of_agedFront hmem).1
        rw [hat, hp] at hl
        exact (List.nodup_cons.mp hnodup).1 hl
      rw [if_neg hnot, if_pos hp, if_pos (by rw [hp]; exact List.mem_cons_self), hp]
    · rw [if_neg hp]
      simp only [List.mem_cons, hp, false_or]
  · rw [hrest.source, hat, hfront, promote_aged, List.dropWhile_cons_of_pos haged]
  · rw [hrest.target, hbelow, hsplit, List.append_assoc]
    rfl
  · rw [hrest.rest q' hq₁ hq₂, hother q' hq₁ hq₂]

/-- **The while loop**, by induction on its turns. -/
theorem switchLevel_passed (hq : q < MLFQ_LEVELS) (hpos : 0 < q) (k : Nat) :
    ∀ {s : Mlfq}, s.Sound → (s.mlfqs q).entries.length ≤ k → Passed s (switchLevel q k s) q := by
  induction k with
  | zero =>
    intro s h hk
    refine Passed.refl h ?_
    unfold agedFront
    rw [List.eq_nil_of_length_eq_zero (Nat.le_zero.mp hk)]
    rfl
  | succ k ih =>
    intro s h hk
    rw [Mlfq.switchLevel, que_front_eq (h.ok q hq)]
    cases hent : (s.mlfqs q).entries with
    | nil =>
      refine Passed.refl h ?_
      unfold agedFront
      rw [hent]
      rfl
    | cons p l =>
      show Passed s (if s.aged p = true then _ else s) q
      by_cases haged : s.aged p = true
      · rw [if_pos haged]
        have hkept := promote_kept h hq hpos (by rw [hent]; rfl) haged
        have hat := (promote_entries h hq hpos hent).2.1
        rw [hent, List.length_cons] at hk
        exact .cons h hq hpos hent haged (ih hkept.sound (by rw [hat]; omega))
      · rw [if_neg haged]
        refine Passed.refl h ?_
        unfold agedFront
        rw [hent, List.takeWhile_cons_of_neg haged]

/-! ## §3. The levels in turn. -/

/-- What stays at a level when its turn has passed. -/
def left (s : Mlfq) (q : Nat) : List Slot :=
  if q = 0 then (s.mlfqs q).entries else (s.mlfqs q).entries.dropWhile s.aged

/-- The levels 1..n have had their turn. -/
structure Upto (s s' : Mlfq) (n : Nat) : Prop where
  sound : s'.Sound
  ticks : s'.ticks = s.ticks
  moved : ∀ q p, 0 < q → q ≤ n → p ∈ s.agedFront q → s'.proc p = (s.proc p).promoted
  kept : ∀ p, (∀ q, 0 < q → q ≤ n → p ∉ s.agedFront q) → s'.proc p = s.proc p
  below : ∀ q, q < n → (s'.mlfqs q).entries = s.left q ++ s.agedFront (q + 1)
  last : (s'.mlfqs n).entries = s.left n
  later : ∀ q, n < q → s'.mlfqs q = s.mlfqs q

theorem Upto.zero (h : s.Sound) : Upto s s 0 :=
  ⟨h, rfl, fun q p hpos hle => by omega, fun _ _ => rfl, fun q hq => by omega, rfl, fun _ _ => rfl⟩

theorem Upto.aged (h : Upto s s' n) : s'.aged = s.aged := by
  funext p
  refine aged_congr h.ticks ?_
  by_cases hmoved : ∃ q, (0 < q ∧ q ≤ n) ∧ p ∈ s.agedFront q
  · obtain ⟨q, ⟨hpos, hle⟩, hp⟩ := hmoved
    exact .inr (h.moved q p hpos hle hp)
  · exact .inl (h.kept p fun q hpos hle hp => hmoved ⟨q, ⟨hpos, hle⟩, hp⟩)

/-- **The next level.** -/
theorem Upto.succ (hs : s.Sound) (h : Upto s s₁ n) (hpass : Passed s₁ s₂ (n + 1)) (hn : n + 1 < MLFQ_LEVELS) :
    Upto s s₂ (n + 1) := by
  have hfront : s₁.agedFront (n + 1) = s.agedFront (n + 1) := by
    unfold agedFront
    rw [h.later (n + 1) (by omega), h.aged]
  -- the fronts of two levels have no process in common
  have hdisj : ∀ q p, q ≤ n → p ∈ s.agedFront q → p ∉ s.agedFront (n + 1) := by
    intro q p hq hp hp'
    have := hs.level_unique (by omega) hn (mem_of_agedFront hp).1 (mem_of_agedFront hp').1
    omega
  have hproc := hpass.proc
  rw [hfront] at hproc
  refine ⟨hpass.sound, hpass.ticks.trans h.ticks, fun q p hpos hle hp => ?_, fun p hnot => ?_, fun q hq => ?_, ?_,
    fun q hq => ?_⟩
  · rw [hproc p]
    by_cases hq : q = n + 1
    · subst hq
      rw [if_pos hp, h.kept p fun q' _ hle' hp' => hdisj q' p hle' hp' hp]
    · rw [if_neg (hdisj q p (by omega) hp)]
      exact h.moved q p hpos (by omega) hp
  · rw [hproc p, if_neg (hnot (n + 1) (by omega) le_rfl)]
    exact h.kept p fun q hpos hle => hnot q hpos (by omega)
  · by_cases hqn : q = n
    · subst hqn
      have htarget := hpass.target
      rw [Nat.add_sub_cancel, h.last, hfront] at htarget
      exact htarget
    · rw [hpass.rest q (by omega) (by omega)]
      exact h.below q (by omega)
  · rw [hpass.source, h.later (n + 1) (by omega), h.aged]
    rfl
  · rw [hpass.rest q (by omega) (by omega)]
    exact h.later q (by omega)

/-- **The for loop**, by induction on the levels that have had their turn. -/
theorem passes_upto (h : s.Sound) (hn : n < MLFQ_LEVELS) :
    Upto s ((List.range' 1 n).foldl (fun s q => switchLevel q (s.mlfqs q).size s) s) n := by
  induction n with
  | zero => exact .zero h
  | succ n ih =>
    have hprev := ih (by omega)
    rw [List.range'_1_concat, List.foldl_append, Nat.add_comm 1 n]
    refine hprev.succ h ?_ hn
    exact switchLevel_passed hn (Nat.succ_pos n) _ hprev.sound (by rw [Que.entries_length])

theorem queue_switch_upto (h : s.Sound) : Upto s s.queue_switch 4 := by
  have hfour : 4 < MLFQ_LEVELS := by decide
  exact passes_upto h hfour

/-! ## §4. Who is moved. -/

/-- Aged processes that stand in front of those that have not aged are all moved. -/
theorem mem_agedFront (h : s.AgedFirst q) : p ∈ s.agedFront q ↔ p ∈ (s.mlfqs q).entries ∧ s.aged p = true := by
  refine ⟨mem_of_agedFront, fun ⟨hp, haged⟩ => ?_⟩
  rw [← List.takeWhile_append_dropWhile (p := s.aged) (l := (s.mlfqs q).entries), List.mem_append] at hp
  rcases hp with hp | hp
  · exact hp
  · rw [h p hp] at haged
    cases haged

/-- The entries still stand at the levels of their processes. -/
theorem WellQueued.queue_switch (h : s.WellQueued) : s.queue_switch.WellQueued := by
  have hup := queue_switch_upto h.toSound
  have hlevel : MLFQ_LEVELS = 5 := rfl
  refine ⟨hup.sound, fun q hq p hp => ?_⟩
  have hsplit : p ∈ s.left q ∨ (q < 4 ∧ p ∈ s.agedFront (q + 1)) := by
    by_cases hq4 : q < 4
    · rw [hup.below q hq4, List.mem_append] at hp
      exact hp.imp_right fun hp => ⟨hq4, hp⟩
    · obtain rfl : q = 4 := by omega
      rw [hup.last] at hp
      exact .inl hp
  rcases hsplit with hp | ⟨hq4, hp⟩
  · -- not moved: an aged front of another level would be entered twice
    have hmem : p ∈ (s.mlfqs q).entries := by
      unfold left at hp
      split at hp
      · exact hp
      · exact (List.dropWhile_sublist s.aged).subset hp
    rw [hup.kept p fun q' hpos hle hp' => ?_]
    · exact h.level q hq p hmem
    have heq := h.level_unique hq (by omega) hmem (mem_of_agedFront hp').1
    subst heq
    unfold left at hp
    rw [if_neg (by omega)] at hp
    have hnodup := h.nodup_level hq
    rw [← List.takeWhile_append_dropWhile (p := s.aged) (l := (s.mlfqs q).entries)] at hnodup
    exact List.disjoint_of_nodup_append hnodup hp' hp
  · rw [hup.moved (q + 1) p (by omega) (by omega) hp]
    show (s.proc p).curr_q - 1 = q
    rw [h.level (q + 1) (by omega) p (mem_of_agedFront hp).1]
    omega

/-- **Aging reaches every starved process**, if no level has one behind an entry that has not aged: it is moved up by one
level, and no other process is touched.  The entries are the same as before, each at the level of its process. -/
theorem aging_reaches (h : s.WellQueued) (hfirst : ∀ q, 0 < q → q < MLFQ_LEVELS → s.AgedFirst q) :
    (∀ p, s.Starved p → (s.queue_switch.proc p).curr_q = (s.proc p).curr_q - 1)
      ∧ (∀ p, ¬ s.Starved p → s.queue_switch.proc p = s.proc p)
      ∧ s.queue_switch.allEntries.Perm s.allEntries ∧ s.queue_switch.WellQueued := by
  have hup := queue_switch_upto h.toSound
  have hlevel : MLFQ_LEVELS = 5 := rfl
  refine ⟨fun p => ?_, fun p hnot => ?_, (queue_switch_kept h.toSound).perm, h.queue_switch⟩
  · rintro ⟨q, hpos, hq, hp⟩
    rw [hup.moved q p hpos (by omega) ((mem_agedFront (hfirst q hpos hq)).mpr hp)]
    rfl
  · refine hup.kept p fun q hpos hle hp => hnot ⟨q, hpos, by omega, ?_⟩
    exact mem_of_agedFront hp

/-! ## §5. Two processes on level 1. -/

/-- Both have aged. -/
def bothAged : Mlfq := { twoWaiting with ticks := 40 }

theorem twoWaiting_level : ∀ q, q < MLFQ_LEVELS → ∀ p ∈ (twoWaiting.mlfqs q).entries, (twoWaiting.proc p).curr_q = q := by
  decide +kernel

theorem bothAged_wellQueued : bothAged.WellQueued :=
  ⟨⟨twoWaiting_sound.ok, twoWaiting_sound.nodup⟩, twoWaiting_level⟩

theorem aging_reaches_bothAged : bothAged.WellQueued ∧ (∀ q, 0 < q → q < MLFQ_LEVELS → bothAged.AgedFirst q)
    ∧ bothAged.Starved 2 ∧ (bothAged.queue_switch.proc 2).curr_q = (bothAged.proc 2).curr_q - 1 := by
  have hfirst : ∀ q, 0 < q → q < MLFQ_LEVELS → bothAged.AgedFirst q := by
    have hall : ∀ q, q < MLFQ_LEVELS → ∀ p ∈ (bothAged.mlfqs q).entries.dropWhile bothAged.aged, bothAged.aged p = false := by
      decide +kernel
    exact fun q _ hq => hall q hq
  have hstarved : bothAged.Starved 2 := ⟨1, by decide, by decide, by decide +kernel, by decide +kernel⟩
  exact ⟨bothAged_wellQueued, hfirst, hstarved, (aging_reaches bothAged_wellQueued hfirst).1 2 hstarved⟩

/-- The one in front sleeps. -/
def sleeperFirst : Mlfq := bothAged.setProc 1 { bothAged.proc 1 with state := .SLEEPING }

/-- **A sleeper in front**: the process behind it has waited for 39 ticks, and stays. -/
theorem sleeper_in_front : sleeperFirst.WellQueued ∧ sleeperFirst.Starved 2
    ∧ (sleeperFirst.queue_switch.proc 2).curr_q = (sleeperFirst.proc 2).curr_q := by
  refine ⟨⟨⟨twoWaiting_sound.ok, twoWaiting_sound.nodup⟩, ?_⟩, ⟨1, by decide, by decide, by decide +kernel, by decide +kernel⟩,
    by decide +kernel⟩
  decide +kernel

end Mlfq

end Xv6
