/-
  Xv6.Sched.Select — the schedulers that search the process table
  (`fcfs_scheduler`, `priority_scheduler`, `lottery_scheduler`,
  `dynamic_priority` of `kernel/proc.c`), with the locks they hold.

  `fcfs_scheduler` and `priority_scheduler` walk over the table once and keep
  the lock of the best process so far.  `lottery_scheduler` takes all locks,
  and gives back all but the winner's.  Each is modelled up to its `swtch`;
  what follows is the same for all (`switched`): the process comes back with
  its lock held, and the scheduler gives it back.

  The walk is an instance of `Lib.Locks.pick`, so its outcome is a
  `List.argmin`.  `fcfs_scheduler` marks "none found" by the time 2^64 - 1,
  which is no problem as long as no process was started then.

  Main results:
    * `picks_best`    — `priority_scheduler` takes the lexicographic minimum,
    * `first_come`    — `fcfs_scheduler` takes the oldest process,
    * `orderly_locks` — the locks held by the three at `swtch` and after it.
-/
import Xv6.Sched.Lottery
import Xv6.Lib.Locks

namespace Xv6.Select

open Function (update)

/-! ## §1. The schedulers. -/

/-- the view of `struct proc` of the FCFS and PBS builds -/
structure SProc where
  state : ProcState
  start_ticks : UInt64
  run_ticks : UInt64
  sleep_ticks : UInt64
  num_scheduled : UInt64
  static_priority : Int32

/-- `struct proc proc[NPROC]` -/
abbrev Table := Slot → SProc

/-- `struct cpu`: the locks it holds, with `noff`, and `c->proc` -/
structure Cpu where
  locks : Lib.Locks Slot
  proc : Option Slot

/-- The panics of `acquire`, `release` and `pop_off`. -/
def lockPanic : Lib.LockPanic → Fault
  | .acquire => .panic "acquire"
  | .release => .panic "release"
  | .pop_off => .panic "pop_off"

/-- `acquire(&p->lock)` -/
def acquire (c : Lib.Locks Slot) (p : Slot) : Result (Lib.Locks Slot) := Lib.Locks.acquire lockPanic c p

/-- `release(&p->lock)` -/
def release (c : Lib.Locks Slot) (p : Slot) : Result (Lib.Locks Slot) := Lib.Locks.release lockPanic c p

/-- The process may be chosen. -/
def runnable (t : Table) (p : Slot) : Bool := (t p).state = .RUNNABLE

/-- The scheduler after its `swtch`: `c->proc = 0; release(&p->lock)`. -/
def switched (c : Cpu) (p : Slot) : Result Cpu := do
  let l ← release c.locks p
  .ok ⟨l, none⟩

/-- `(uint64)-1` -/
def noTicks : UInt64 := 0xffffffffffffffff

/-- The variables of `fcfs_scheduler`. -/
structure FcfsScan where
  locks : Lib.Locks Slot
  min_proc : Option Slot
  min_sticks : UInt64

/-- The two tests in the loop of `fcfs_scheduler`. -/
def fcfsChallenge (t : Table) (x : FcfsScan) (p : Slot) : Result FcfsScan :=
  if runnable t p then
    let x : FcfsScan := if x.min_sticks = noTicks then { x with min_sticks := (t p).start_ticks, min_proc := some p } else x
    if (t p).start_ticks < x.min_sticks then
      match x.min_proc with
      | none => .error .null
      | some m => do
          let c ← release x.locks m
          .ok ⟨c, some p, (t p).start_ticks⟩
    else .ok x
  else .ok x

/-- One turn of the loop of `fcfs_scheduler`. -/
def fcfsTurn (t : Table) (x : FcfsScan) (p : Slot) : Result FcfsScan := do
  let c ← acquire x.locks p
  let x ← fcfsChallenge t { x with locks := c } p
  if x.min_proc ≠ some p then do
    let c ← release x.locks p
    .ok { x with locks := c }
  else .ok x

/-- `fcfs_scheduler(c)`, up to its `swtch` -/
def fcfs_scheduler (t : Table) (c : Cpu) : Result (Table × Cpu × Option Slot) := do
  let x ← (List.finRange NPROC).foldlM (fcfsTurn t) ⟨c.locks, none, noTicks⟩
  if x.min_sticks ≠ noTicks then
    match x.min_proc with
    | none => .error .null
    | some m =>
      if (t m).state ≠ .RUNNABLE then do
        let l ← release x.locks m
        .ok (t, { c with locks := l }, none)
      else .ok (update t m { t m with state := .RUNNING }, ⟨x.locks, some m⟩, some m)
  else .ok (t, { c with locks := x.locks }, none)

/-- the `niceness` of `dynamic_priority`; a `uint64` is cut to an `int` -/
def niceness (x : SProc) : Int32 :=
  if x.sleep_ticks + x.run_ticks = 0 then 5
  else (x.sleep_ticks / (x.sleep_ticks + x.run_ticks)).toUInt32.toInt32 * 10

/-- `dynamic_priority(p)` -/
def dynamic_priority (x : SProc) : Int32 :=
  let DP := x.static_priority - niceness x + 5
  let DP := if DP > 100 then 100 else DP
  if DP < 0 then 0 else DP

/-- `release(&high_proc->lock); high_proc = p` -/
def exchange (c : Lib.Locks Slot) (h p : Slot) : Result (Lib.Locks Slot × Option Slot) := do
  let c ← release c h
  .ok (c, some p)

/-- The comparison in the loop of `priority_scheduler`. -/
def priorityChallenge (t : Table) (c : Lib.Locks Slot) (high_proc : Option Slot) (p : Slot) :
    Result (Lib.Locks Slot × Option Slot) :=
  if runnable t p then
    match high_proc with
    | none => .ok (c, some p)
    | some h =>
      let high_priority := dynamic_priority (t h)
      let curr_priority := dynamic_priority (t p)
      if curr_priority < high_priority then exchange c h p
      else if curr_priority = high_priority then
        if (t p).num_scheduled < (t h).num_scheduled then exchange c h p
        else if (t p).num_scheduled = (t h).num_scheduled then
          if (t p).start_ticks < (t h).start_ticks then exchange c h p
          else .ok (c, some h)
        else .ok (c, some h)
      else .ok (c, some h)
  else .ok (c, high_proc)

/-- One turn of the loop of `priority_scheduler`. -/
def priorityTurn (t : Table) (x : Lib.Locks Slot × Option Slot) (p : Slot) : Result (Lib.Locks Slot × Option Slot) := do
  let c ← acquire x.1 p
  let (c, high_proc) ← priorityChallenge t c x.2 p
  if high_proc ≠ some p then do
    let c ← release c p
    .ok (c, high_proc)
  else .ok (c, high_proc)

/-- What `priority_scheduler` writes to the process it dispatches. -/
def SProc.scheduled (x : SProc) : SProc :=
  { x with state := .RUNNING, num_scheduled := x.num_scheduled + 1, run_ticks := 0, sleep_ticks := 0 }

/-- `priority_scheduler(c)`, up to its `swtch` -/
def priority_scheduler (t : Table) (c : Cpu) : Result (Table × Cpu × Option Slot) := do
  let (l, high_proc) ← (List.finRange NPROC).foldlM (priorityTurn t) (c.locks, none)
  match high_proc with
  | none => .ok (t, { c with locks := l }, none)
  | some h =>
    if (t h).state = .RUNNABLE then .ok (update t h (t h).scheduled, ⟨l, some h⟩, some h)
    else do
      let l ← release l h
      .ok (t, { c with locks := l }, none)

/-- One turn of the first loop of `lottery_scheduler`. -/
def ticketTurn (s : Lottery) (x : Lib.Locks Slot × Int32) (p : Slot) : Result (Lib.Locks Slot × Int32) := do
  let c ← acquire x.1 p
  .ok (c, if s.runnable p then x.2 + (s.proc p).tickets else x.2)

/-- One turn of its second loop; the winner is not released. -/
def drawTurn (s : Lottery) (tochoose : Int32) (x : Lib.Locks Slot × Int32 × Option Slot) (p : Slot) :
    Result (Lib.Locks Slot × Int32 × Option Slot) :=
  if s.runnable p then
    let curr := x.2.1 + (s.proc p).tickets
    if curr ≥ tochoose ∧ x.2.2 = none then .ok (x.1, curr, some p)
    else do
      let c ← release x.1 p
      .ok (c, curr, x.2.2)
  else do
    let c ← release x.1 p
    .ok (c, x.2)

/-- `lottery_scheduler(c)`, up to its `swtch` -/
def lottery_scheduler (s : Lottery) (ticks : UInt32) (c : Cpu) : Result (Lottery × Cpu × Option Slot) := do
  let (l, total_tickets) ← (List.finRange NPROC).foldlM (ticketTurn s) (c.locks, 0)
  if total_tickets = 0 then do
    let l ← (List.finRange NPROC).foldlM release l
    .ok (s, { c with locks := l }, none)
  else do
    let draw := rand s.next ticks
    let (l, _, win) ← (List.finRange NPROC).foldlM (drawTurn s (draw.2 % total_tickets)) (l, 0, none)
    let s' : Lottery := { s with next := draw.1 }
    match win with
    | none => .ok (s', { c with locks := l }, none)
    | some w =>
      if (s.proc w).state ≠ .RUNNABLE then do
        let l ← release l w
        .ok (s', { c with locks := l }, none)
      else .ok (s'.setProc w { s.proc w with state := .RUNNING }, ⟨l, some w⟩, some w)

/-! ## §2. The walk of `priority_scheduler`. -/

/-- The lexicographic order of `priority_scheduler`. -/
def SProc.before (x y : SProc) : Prop :=
  dynamic_priority x < dynamic_priority y ∨ dynamic_priority x = dynamic_priority y ∧
    (x.num_scheduled < y.num_scheduled ∨ x.num_scheduled = y.num_scheduled ∧ x.start_ticks < y.start_ticks)

instance (x y : SProc) : Decidable (x.before y) := by
  unfold SProc.before
  infer_instance

/-- The key that it sorts by. -/
def key (t : Table) (p : Slot) : Int ×ₗ Nat ×ₗ Nat :=
  toLex ((dynamic_priority (t p)).toInt, toLex ((t p).num_scheduled.toNat, (t p).start_ticks.toNat))

section Priority

variable {t : Table} {c : Cpu} {p : Slot}

theorem key_lt_iff (t : Table) (p q : Slot) : key t p < key t q ↔ (t p).before (t q) := by
  unfold key SProc.before
  rw [Prod.Lex.toLex_lt_toLex, Prod.Lex.toLex_lt_toLex]
  simp only [Int32.lt_iff_toInt_lt, UInt64.lt_iff_toNat_lt, UInt64.toNat_inj, Int32.toInt_inj]

/-- The nested comparison is that of the keys. -/
theorem compare_eq {α : Type} (t : Table) (p h : Slot) (yes no : α) :
    (if dynamic_priority (t p) < dynamic_priority (t h) then yes
      else if dynamic_priority (t p) = dynamic_priority (t h) then
        if (t p).num_scheduled < (t h).num_scheduled then yes
        else if (t p).num_scheduled = (t h).num_scheduled then
          if (t p).start_ticks < (t h).start_ticks then yes else no
        else no
      else no)
    = if decide (key t p < key t h) then yes else no := by
  simp only [decide_eq_true_eq, key_lt_iff]
  by_cases hlt : dynamic_priority (t p) < dynamic_priority (t h)
  · rw [if_pos hlt, if_pos (.inl hlt)]
  rw [if_neg hlt]
  by_cases heq : dynamic_priority (t p) = dynamic_priority (t h)
  · rw [if_pos heq]
    by_cases hnum : (t p).num_scheduled < (t h).num_scheduled
    · rw [if_pos hnum, if_pos (.inr ⟨heq, .inl hnum⟩)]
    rw [if_neg hnum]
    by_cases hneq : (t p).num_scheduled = (t h).num_scheduled
    · rw [if_pos hneq]
      by_cases hst : (t p).start_ticks < (t h).start_ticks
      · rw [if_pos hst, if_pos (.inr ⟨heq, .inr ⟨hneq, hst⟩⟩)]
      · rw [if_neg hst, if_neg]
        rintro (h₁ | ⟨-, h₂ | ⟨-, h₃⟩⟩)
        · exact hlt h₁
        · exact hnum h₂
        · exact hst h₃
    · rw [if_neg hneq, if_neg]
      rintro (h₁ | ⟨-, h₂ | ⟨h₃, -⟩⟩)
      · exact hlt h₁
      · exact hnum h₂
      · exact hneq h₃
  · rw [if_neg heq, if_neg]
    rintro (h₁ | ⟨h₂, -⟩)
    · exact hlt h₁
    · exact heq h₂

/-- The walk keeps the lock of the best process so far. -/
theorem priorityTurn_eq (t : Table) (x : Lib.Locks Slot × Option Slot) (p : Slot) :
    priorityTurn t x p = Lib.Locks.pickTurn lockPanic (runnable t) (fun p q => decide (key t p < key t q)) x p := by
  have hcomp : ∀ c high_proc, priorityChallenge t c high_proc p
      = Lib.Locks.challenge lockPanic (runnable t) (fun p q => decide (key t p < key t q)) c high_proc p := by
    intro c high_proc
    unfold priorityChallenge Lib.Locks.challenge
    simp only [compare_eq]
    cases high_proc with
    | none | some h => rfl
  unfold priorityTurn Lib.Locks.pickTurn
  simp only [hcomp]
  rfl

/-- **The walk of `priority_scheduler`**. -/
theorem priority_walk (t : Table) {l : Lib.Locks Slot} (h : l.Holds ∅) :
    ∃ l', (List.finRange NPROC).foldlM (priorityTurn t) (l, none)
        = .ok (l', ((List.finRange NPROC).filter (runnable t)).argmin (key t))
      ∧ l'.Holds (((List.finRange NPROC).filter (runnable t)).argmin (key t)).toFinset := by
  have hturn : priorityTurn t = Lib.Locks.pickTurn lockPanic (runnable t) fun p q => decide (key t p < key t q) := by
    funext x p
    exact priorityTurn_eq t x p
  rw [hturn]
  exact Lib.Locks.pick_spec lockPanic (List.nodup_finRange NPROC) h

end Priority

/-! ## §3. The walk of `fcfs_scheduler`. -/

/-- The time that goes with the process found so far. -/
def sticks (t : Table) : Option Slot → UInt64
  | none => noTicks
  | some m => (t m).start_ticks

/-- The variables, by the process chosen so far. -/
def FcfsScan.of (t : Table) (x : Lib.Locks Slot × Option Slot) : FcfsScan := ⟨x.1, x.2, sticks t x.2⟩

/-- The key that it sorts by. -/
def age (t : Table) (p : Slot) : Nat := (t p).start_ticks.toNat

/-- No RUNNABLE process was started at the time that stands for "none". -/
def Dated (t : Table) : Prop := ∀ p, (t p).state = .RUNNABLE → (t p).start_ticks ≠ noTicks

section Fcfs

variable {t : Table} {c : Lib.Locks Slot} {b : Option Slot} {p : Slot}

/-- The two tests are one comparison. -/
theorem fcfsChallenge_eq (ht : Dated t) (hb : ∀ m ∈ b, runnable t m = true) (c : Lib.Locks Slot) (p : Slot) :
    fcfsChallenge t (FcfsScan.of t (c, b)) p
      = (Lib.Locks.challenge lockPanic (runnable t) (fun p q => decide (age t p < age t q)) c b p).map (FcfsScan.of t) := by
  unfold fcfsChallenge Lib.Locks.challenge
  cases hp : runnable t p with
  | false => rfl
  | true =>
    cases b with
    | none =>
      exact if_neg (UInt64.lt_irrefl _)
    | some m =>
      have hm : (FcfsScan.of t (c, some m)).min_sticks ≠ noTicks := ht m (of_decide_eq_true (hb m rfl))
      rw [if_neg hm]
      dsimp only
      have hcmp : (t p).start_ticks < (FcfsScan.of t (c, some m)).min_sticks ↔ decide (age t p < age t m) = true := by
        rw [decide_eq_true_eq]
        exact UInt64.lt_iff_toNat_lt
      by_cases hlt : decide (age t p < age t m) = true
      · rw [if_pos (hcmp.mpr hlt), if_pos hlt]
        show (release c m >>= fun c => .ok ⟨c, some p, (t p).start_ticks⟩)
          = (release c m >>= fun c => .ok (c, some p)).map (FcfsScan.of t)
        cases release c m with
        | error e | ok c' => rfl
      · rw [if_neg (mt hcmp.mp hlt), if_neg hlt]
        rfl

theorem fcfsTurn_eq (ht : Dated t) (hb : ∀ m ∈ b, runnable t m = true) (c : Lib.Locks Slot) (p : Slot) :
    fcfsTurn t (FcfsScan.of t (c, b)) p
      = (Lib.Locks.pickTurn lockPanic (runnable t) (fun p q => decide (age t p < age t q)) (c, b) p).map
          (FcfsScan.of t) := by
  show (acquire c p >>= fun c => _) = ((acquire c p >>= fun c => _).map _)
  cases acquire c p with
  | error e => rfl
  | ok c₁ =>
    have hch := fcfsChallenge_eq ht hb c₁ p
    have hof : ({ FcfsScan.of t (c, b) with locks := c₁ } : FcfsScan) = FcfsScan.of t (c₁, b) := rfl
    simp only [Result.ok_bind, hof, hch]
    cases Lib.Locks.challenge lockPanic (runnable t) (fun p q => decide (age t p < age t q)) c₁ b p with
    | error e => rfl
    | ok y =>
      show (if y.2 ≠ some p then (release y.1 p >>= fun c => .ok ⟨c, y.2, sticks t y.2⟩) else .ok (FcfsScan.of t y))
        = (Lib.Locks.settle lockPanic y p).map (FcfsScan.of t)
      unfold Lib.Locks.settle
      by_cases hy : y.2 ≠ some p
      · rw [if_pos hy, if_pos hy]
        show _ = (release y.1 p >>= fun c => .ok (c, y.2)).map (FcfsScan.of t)
        cases release y.1 p with
        | error e | ok c' => rfl
      · rw [if_neg hy, if_neg hy]
        rfl

theorem fcfs_fold (ht : Dated t) (l : List Slot) : ∀ (c : Lib.Locks Slot) (b : Option Slot),
    (∀ m ∈ b, runnable t m = true) → l.foldlM (fcfsTurn t) (FcfsScan.of t (c, b))
      = (l.foldlM (Lib.Locks.pickTurn lockPanic (runnable t) fun p q => decide (age t p < age t q)) (c, b)).map
          (FcfsScan.of t) := by
  induction l with
  | nil => exact fun c b _ => rfl
  | cons p l ih =>
    intro c b hb
    rw [List.foldlM_cons, List.foldlM_cons, fcfsTurn_eq ht hb]
    cases hturn : Lib.Locks.pickTurn lockPanic (runnable t) (fun p q => decide (age t p < age t q)) (c, b) p with
    | error e => rfl
    | ok y => exact ih y.1 y.2 (Lib.Locks.pickTurn_ok lockPanic hb hturn)

/-- **The walk of `fcfs_scheduler`.** -/
theorem fcfs_walk (ht : Dated t) {l : Lib.Locks Slot} (h : l.Holds ∅) :
    ∃ l', (List.finRange NPROC).foldlM (fcfsTurn t) ⟨l, none, noTicks⟩
        = .ok (FcfsScan.of t (l', ((List.finRange NPROC).filter (runnable t)).argmin (age t)))
      ∧ l'.Holds (((List.finRange NPROC).filter (runnable t)).argmin (age t)).toFinset := by
  obtain ⟨l', hpick, h'⟩ : ∃ l', Lib.Locks.pick lockPanic (runnable t) (fun p q => decide (age t p < age t q))
      (List.finRange NPROC) l = .ok (l', _) ∧ _ := Lib.Locks.pick_spec lockPanic (List.nodup_finRange NPROC) h
  refine ⟨l', ?_, h'⟩
  have hfold := fcfs_fold ht (List.finRange NPROC) l none (fun _ hm => (nomatch hm))
  rw [show FcfsScan.of t (l, none) = ⟨l, none, noTicks⟩ from rfl] at hfold
  rw [hfold]
  unfold Lib.Locks.pick at hpick
  rw [hpick]
  rfl

end Fcfs

/-! ## §4. The two walks of `lottery_scheduler`. -/

section Draw

variable {s : Lottery} {tochoose : Int32}

/-- The second walk gives back the locks of all but the winner. -/
theorem draw_walk (ps : List Slot) : ∀ {l : Lib.Locks Slot} (curr : Int32) (win : Option Slot), ps.Nodup →
    (∀ p ∈ win, p ∉ ps) → l.Holds (ps.toFinset ∪ win.toFinset) →
    ∃ l', ps.foldlM (drawTurn s tochoose) (l, curr, win) = .ok (l', ps.foldl (s.scanTurn tochoose) (curr, win))
      ∧ l'.Holds (ps.foldl (s.scanTurn tochoose) (curr, win)).2.toFinset := by
  induction ps with
  | nil =>
    intro l curr win _ _ h
    rw [List.toFinset_nil, Finset.empty_union] at h
    exact ⟨l, rfl, h⟩
  | cons p ps ih =>
    intro l curr win hnd hwin h
    obtain ⟨hp, hnd⟩ := List.nodup_cons.mp hnd
    rw [List.toFinset_cons, Finset.insert_union] at h
    have hnot : p ∉ ps.toFinset ∪ win.toFinset := by
      rw [Finset.mem_union, List.mem_toFinset, Option.mem_toFinset]
      rintro (hin | hin)
      · exact hp hin
      · exact hwin p hin (List.mem_cons_self ..)
    -- the lock of `p` goes back where it does not win
    obtain ⟨l₁, hrel, h₁⟩ := Lib.Locks.release_spec lockPanic h (Finset.mem_insert_self p _)
    rw [Finset.erase_insert hnot] at h₁
    have hwin₁ : ∀ q ∈ win, q ∉ ps := fun q hq hqs => hwin q hq (List.mem_cons_of_mem p hqs)
    have hlose : ∀ x : Int32, (release l p >>= fun c => .ok (c, x, win)) = (.ok (l₁, x, win) : Result _) := by
      intro x
      rw [show release l p = .ok l₁ from hrel]
      rfl
    rw [List.foldlM_cons, List.foldl_cons]
    unfold drawTurn
    by_cases hr : s.runnable p
    · rw [if_pos hr]
      by_cases hc : curr + (s.proc p).tickets ≥ tochoose ∧ win = none
      · -- the winner
        have hscan : s.scanTurn tochoose (curr, win) p = (curr + (s.proc p).tickets, some p) := by
          rw [Lottery.scanTurn, if_pos hr]
          exact if_pos hc
        rw [if_pos hc, hscan]
        refine ih _ (some p) hnd (fun q hq => ?_) ?_
        · rw [← Option.some.inj hq]
          exact hp
        rw [hc.2] at h
        have hset : insert p (ps.toFinset ∪ (none : Option Slot).toFinset) = ps.toFinset ∪ (some p).toFinset := by
          ext q
          simp
        rw [hset] at h
        exact h
      · have hscan : s.scanTurn tochoose (curr, win) p = (curr + (s.proc p).tickets, win) := by
          rw [Lottery.scanTurn, if_pos hr]
          exact if_neg hc
        rw [if_neg hc, hscan, hlose]
        exact ih _ win hnd hwin₁ h₁
    · have hscan : s.scanTurn tochoose (curr, win) p = (curr, win) := by
        rw [Lottery.scanTurn, if_neg hr]
      rw [if_neg hr, hscan]
      rw [hlose]
      exact ih _ win hnd hwin₁ h₁

end Draw

/-! ## §5. What the schedulers choose. -/

variable {β : Type} {ok : Slot → Bool} {f : Slot → β}

/-- The first minimum of a table, by the order of the slots. -/
theorem first_minimum [LinearOrder β] {p : Slot} (h : ((List.finRange NPROC).filter ok).argmin f = some p) :
    ok p = true ∧ ∀ q, ok q = true → f p ≤ f q ∧ (f q = f p → p ≤ q) := by
  have hmem : p ∈ ((List.finRange NPROC).filter ok).argmin f := h
  have hin := List.argmin_mem hmem
  refine ⟨(List.mem_filter.mp hin).2, fun q hq => ?_⟩
  have hqin : q ∈ (List.finRange NPROC).filter ok := List.mem_filter.mpr ⟨List.mem_finRange q, hq⟩
  refine ⟨List.le_of_mem_argmin hqin hmem, fun heq => ?_⟩
  -- the list is in the order of the slots
  have hidx := List.index_of_argmin hmem hqin heq.le
  have hsorted : ((List.finRange NPROC).filter ok).Pairwise (· < ·) := (List.pairwise_lt_finRange NPROC).filter ok
  rcases Nat.lt_or_eq_of_le hidx with hlt | hsame
  · have hget := List.pairwise_iff_getElem.mp hsorted _ _ (List.idxOf_lt_length_of_mem hin)
      (List.idxOf_lt_length_of_mem hqin) hlt
    rw [List.getElem_idxOf, List.getElem_idxOf] at hget
    exact hget.le
  · exact (List.idxOf_inj hin |>.mp hsame).le

theorem argmin_none [LinearOrder β] : ((List.finRange NPROC).filter ok).argmin f = none ↔ ∀ p, ok p = false := by
  rw [List.argmin_eq_none, List.filter_eq_nil_iff]
  constructor
  · intro h p
    exact Bool.not_eq_true _ ▸ h p (List.mem_finRange p)
  · intro h p _
    rw [h p]
    exact Bool.false_ne_true

/-- The locks at a `swtch` to `r`, or at a return without one: `sched` finds the lock of the process held and `noff` 1,
and no lock is left at the end. -/
structure Orderly (c : Cpu) (r : Option Slot) : Prop where
  locks : c.locks.Holds r.toFinset
  back : ∀ p, r = some p → ∃ c', switched c p = .ok c' ∧ c'.locks.Holds ∅

theorem Orderly.of_holds {c : Cpu} {r : Option Slot} (h : c.locks.Holds r.toFinset) : Orderly c r := by
  refine ⟨h, fun p hp => ?_⟩
  subst hp
  obtain ⟨l, hrel, hl⟩ := Lib.Locks.release_spec lockPanic h (by simp : p ∈ (some p).toFinset)
  refine ⟨⟨l, none⟩, ?_, ?_⟩
  · unfold switched
    rw [show release c.locks p = .ok l from hrel]
    rfl
  · have hset : (some p).toFinset.erase p = ∅ := by simp
    rw [hset] at hl
    exact hl

/-- What a scheduler does to the table: it dispatches a RUNNABLE process if there is one, which `wins` against all of them,
and writes to that process only. -/
structure Serves (t : Table) (wins : Slot → Slot → Prop) (write : SProc → SProc) (t' : Table) (c' : Cpu)
    (r : Option Slot) : Prop where
  idle : r = none ↔ ∀ p, (t p).state ≠ .RUNNABLE
  same : r = none → t' = t
  chosen : ∀ p, r = some p → (t p).state = .RUNNABLE ∧ (∀ q, (t q).state = .RUNNABLE → wins p q)
    ∧ c'.proc = some p ∧ t' = update t p (write (t p))

/-- The first minimum serves. -/
theorem serves_of_argmin [LinearOrder β] {t : Table} {c' : Cpu} {wins : Slot → Slot → Prop}
    {write : SProc → SProc} {run : Result (Table × Cpu × Option Slot)}
    (hrun : match ((List.finRange NPROC).filter (runnable t)).argmin f with
      | none => run = .ok (t, c', none)
      | some p => run = .ok (update t p (write (t p)), c', some p) ∧ c'.proc = some p)
    (hwins : ∀ p q, f p ≤ f q → (f q = f p → p ≤ q) → wins p q) :
    ∃ t' c' r, run = .ok (t', c', r) ∧ Serves t wins write t' c' r := by
  cases hmin : ((List.finRange NPROC).filter (runnable t)).argmin f with
  | none =>
    rw [hmin] at hrun
    refine ⟨t, c', none, hrun, ⟨fun _ p hp => ?_, fun _ => rfl⟩, fun _ => rfl, fun p hp => (nomatch hp)⟩
    exact absurd (argmin_none.mp hmin p) (by simp [runnable, hp])
  | some p =>
    rw [hmin] at hrun
    obtain ⟨hp, hleast⟩ := first_minimum hmin
    have hp : (t p).state = .RUNNABLE := of_decide_eq_true hp
    refine ⟨_, c', some p, hrun.1, ⟨fun hno => (nomatch hno), fun hno => absurd hp (hno p)⟩, fun hno => (nomatch hno),
      fun p' hp' => ?_⟩
    cases hp'
    refine ⟨hp, fun q hq => ?_, hrun.2, rfl⟩
    obtain ⟨hle, hfirst⟩ := hleast q (decide_eq_true hq)
    exact hwins p q hle hfirst

section Main

variable {t : Table} {c : Cpu}

/-- **`priority_scheduler`** dispatches the process with the smallest key. -/
theorem priority_scheduler_spec (t : Table) (h : c.locks.Holds ∅) :
    ∃ c', Orderly c' (((List.finRange NPROC).filter (runnable t)).argmin (key t))
      ∧ match ((List.finRange NPROC).filter (runnable t)).argmin (key t) with
        | none => priority_scheduler t c = .ok (t, c', none)
        | some p => priority_scheduler t c = .ok (update t p (t p).scheduled, c', some p) ∧ c'.proc = some p := by
  obtain ⟨l, hwalk, hl⟩ := priority_walk t h
  cases hmin : ((List.finRange NPROC).filter (runnable t)).argmin (key t) with
  | none =>
    rw [hmin] at hwalk hl
    refine ⟨{ c with locks := l }, .of_holds hl, ?_⟩
    rw [priority_scheduler, hwalk]
    rfl
  | some p =>
    rw [hmin] at hwalk hl
    have hrun : (t p).state = .RUNNABLE := of_decide_eq_true (first_minimum hmin).1
    refine ⟨⟨l, some p⟩, .of_holds hl, ?_, rfl⟩
    rw [priority_scheduler, hwalk]
    exact if_pos hrun

/-- **`fcfs_scheduler`** dispatches the oldest process. -/
theorem fcfs_scheduler_spec (ht : Dated t) (h : c.locks.Holds ∅) :
    ∃ c', Orderly c' (((List.finRange NPROC).filter (runnable t)).argmin (age t))
      ∧ match ((List.finRange NPROC).filter (runnable t)).argmin (age t) with
        | none => fcfs_scheduler t c = .ok (t, c', none)
        | some p => fcfs_scheduler t c = .ok (update t p { t p with state := .RUNNING }, c', some p)
            ∧ c'.proc = some p := by
  obtain ⟨l, hwalk, hl⟩ := fcfs_walk ht h
  cases hmin : ((List.finRange NPROC).filter (runnable t)).argmin (age t) with
  | none =>
    rw [hmin] at hwalk hl
    refine ⟨{ c with locks := l }, .of_holds hl, ?_⟩
    have hnone : ¬ (FcfsScan.of t (l, none)).min_sticks ≠ noTicks := fun hno => hno rfl
    rw [fcfs_scheduler, hwalk, Result.ok_bind, if_neg hnone]
    rfl
  | some p =>
    rw [hmin] at hwalk hl
    have hrun : (t p).state = .RUNNABLE := of_decide_eq_true (first_minimum hmin).1
    refine ⟨⟨l, some p⟩, .of_holds hl, ?_, rfl⟩
    rw [fcfs_scheduler, hwalk]
    have hsome : (FcfsScan.of t (l, some p)).min_sticks ≠ noTicks := ht p hrun
    refine (if_pos hsome).trans ?_
    exact if_neg (fun hno => hno hrun)

/-- **`lottery_scheduler`** with its locks chooses as without them. -/
theorem lottery_scheduler_spec (s : Lottery) (ticks : UInt32) (h : c.locks.Holds ∅) :
    ∃ c', lottery_scheduler s ticks c = .ok ((s.lottery_scheduler ticks).1, c', (s.lottery_scheduler ticks).2)
      ∧ Orderly c' (s.lottery_scheduler ticks).2 := by
  obtain ⟨l₁, htickets, hl₁⟩ := Lib.Locks.acquire_all lockPanic
    (fun total p => if s.runnable p then total + (s.proc p).tickets else total) (List.finRange NPROC) (0 : Int32) h
    (List.nodup_finRange NPROC) (fun _ _ => Finset.notMem_empty _)
  have hfirst : (List.finRange NPROC).foldlM (ticketTurn s) (c.locks, 0) = .ok (l₁, s.total_tickets) := htickets
  rw [Finset.empty_union] at hl₁
  unfold lottery_scheduler Lottery.lottery_scheduler Lottery.lottery
  rw [hfirst, Result.ok_bind]
  dsimp only
  by_cases hzero : s.total_tickets = 0
  · -- no tickets: all locks go back
    obtain ⟨l₂, hrel, hl₂⟩ := Lib.Locks.release_all lockPanic (List.finRange NPROC) hl₁ (List.nodup_finRange NPROC)
      (fun p hp => List.mem_toFinset.mpr hp)
    rw [Finset.sdiff_self] at hl₂
    have hrel' : (List.finRange NPROC).foldlM release l₁ = .ok l₂ := hrel
    rw [if_pos hzero, if_pos hzero, hrel', Result.ok_bind]
    exact ⟨{ c with locks := l₂ }, rfl, .of_holds hl₂⟩
  have hall : l₁.Holds ((List.finRange NPROC).toFinset ∪ (none : Option Slot).toFinset) := by
    rw [show (none : Option Slot).toFinset = ∅ from rfl, Finset.union_empty]
    exact hl₁
  obtain ⟨l₂, hdraw, hl₂⟩ : ∃ l₂, (List.finRange NPROC).foldlM
      (drawTurn s ((rand s.next ticks).2 % s.total_tickets)) (l₁, 0, none) = .ok (l₂, _) ∧ _ :=
    draw_walk (List.finRange NPROC) 0 none (List.nodup_finRange NPROC) (fun _ hp => (nomatch hp)) hall
  rw [if_neg hzero, if_neg hzero, hdraw, Result.ok_bind]
  have hwin : s.win ((rand s.next ticks).2 % s.total_tickets)
    = ((List.finRange NPROC).foldl (s.scanTurn ((rand s.next ticks).2 % s.total_tickets)) (0, none)).2 := rfl
  rw [← hwin] at hl₂
  rw [← hwin]
  cases hw : s.win ((rand s.next ticks).2 % s.total_tickets) with
  | none =>
    rw [hw] at hl₂
    exact ⟨{ c with locks := l₂ }, rfl, .of_holds hl₂⟩
  | some w =>
    rw [hw] at hl₂
    dsimp only
    by_cases hrun : (s.proc w).state ≠ .RUNNABLE
    · obtain ⟨l₃, hrel, hl₃⟩ := Lib.Locks.release_spec lockPanic hl₂ (by simp : w ∈ (some w).toFinset)
      have hset : (some w).toFinset.erase w = ∅ := by simp
      rw [hset] at hl₃
      rw [if_pos hrun, if_pos hrun, show release l₂ w = .ok l₃ from hrel, Result.ok_bind]
      exact ⟨{ c with locks := l₃ }, rfl, .of_holds hl₃⟩
    · rw [if_neg hrun, if_neg hrun]
      exact ⟨⟨l₂, some w⟩, rfl, .of_holds hl₂⟩

/-- **Priority scheduling picks the lexicographic minimum**, the lowest slot among equals. -/
theorem picks_best (t : Table) (h : c.locks.Holds ∅) : ∃ t' c' r, priority_scheduler t c = .ok (t', c', r)
      ∧ Serves t (fun p q => ¬ (t q).before (t p) ∧ (q < p → (t p).before (t q))) SProc.scheduled t' c' r := by
  obtain ⟨c', -, hrun⟩ := priority_scheduler_spec t h
  refine serves_of_argmin hrun fun p q hle hfirst => ⟨fun hbefore => ?_, fun hlt => ?_⟩
  · exact absurd ((key_lt_iff t q p).mpr hbefore) (not_lt.mpr hle)
  · -- an equal key would have been found first
    rw [← key_lt_iff]
    refine lt_of_le_of_ne hle fun heq => ?_
    exact absurd (hfirst heq.symm) (not_le.mpr hlt)

/-- **First come, first served**: the process that was created first, the lowest slot among equals.  `created` is the value
of `ticks` in `allocproc`. -/
theorem first_come {created : Slot → UInt32} (ht : ∀ p, (t p).state = .RUNNABLE → (t p).start_ticks = (created p).toUInt64)
    (h : c.locks.Holds ∅) :
    ∃ t' c' r, fcfs_scheduler t c = .ok (t', c', r)
      ∧ Serves t (fun p q => (t p).start_ticks ≤ (t q).start_ticks ∧ ((t q).start_ticks = (t p).start_ticks → p ≤ q))
          (fun x => { x with state := .RUNNING }) t' c' r := by
  have hdated : Dated t := by
    intro p hp heq
    rw [ht p hp] at heq
    have hnat := congrArg UInt64.toNat heq
    have hlt := (created p).toNat_lt
    rw [UInt32.toNat_toUInt64] at hnat
    have hmax : noTicks.toNat = 2 ^ 64 - 1 := by decide
    omega
  obtain ⟨c', -, hrun⟩ := fcfs_scheduler_spec hdated h
  refine serves_of_argmin hrun fun p q hle hfirst => ?_
  exact ⟨UInt64.le_iff_toNat_le.mpr hle, fun heq => hfirst (congrArg UInt64.toNat heq)⟩

/-- **Lock discipline**: none of the three schedulers panics on a lock, each holds the lock of the chosen process only at
its `swtch`, and none at the end.  For `fcfs_scheduler` no RUNNABLE process may have been started at time 2^64 - 1. -/
theorem orderly_locks (h : c.locks.Holds ∅) :
    (∀ t, Dated t → ∃ t' c' r, fcfs_scheduler t c = .ok (t', c', r) ∧ Orderly c' r)
      ∧ (∀ t, ∃ t' c' r, priority_scheduler t c = .ok (t', c', r) ∧ Orderly c' r)
      ∧ ∀ s ticks, ∃ s' c' r, lottery_scheduler s ticks c = .ok (s', c', r) ∧ Orderly c' r := by
  refine ⟨fun t ht => ?_, fun t => ?_, fun s ticks => ?_⟩
  · obtain ⟨c', hord, hrun⟩ := fcfs_scheduler_spec ht h
    split at hrun
    · rename_i hmin
      rw [hmin] at hord
      exact ⟨_, c', none, hrun, hord⟩
    · rename_i p hmin
      rw [hmin] at hord
      exact ⟨_, c', some p, hrun.1, hord⟩
  · obtain ⟨c', hord, hrun⟩ := priority_scheduler_spec t h
    split at hrun
    · rename_i hmin
      rw [hmin] at hord
      exact ⟨_, c', none, hrun, hord⟩
    · rename_i p hmin
      rw [hmin] at hord
      exact ⟨_, c', some p, hrun.1, hord⟩
  · obtain ⟨c', hrun, hord⟩ := lottery_scheduler_spec s ticks h
    exact ⟨_, c', _, hrun, hord⟩

end Main

/-! ## §6. A table of two processes. -/

/-- A CPU in the loop of `scheduler`. -/
def idleCpu : Cpu := ⟨⟨fun _ => false, 0⟩, none⟩

theorem idleCpu_holds : idleCpu.locks.Holds ∅ := ⟨fun i => by simp [idleCpu], rfl⟩

/-- Slots 1 and 2 are RUNNABLE and differ in when they were started only. -/
def twoReady (start₁ start₂ : UInt64) : Table := fun p =>
  if p = 1 then ⟨.RUNNABLE, start₁, 0, 0, 0, 60⟩
  else if p = 2 then ⟨.RUNNABLE, start₂, 0, 0, 0, 60⟩
  else ⟨.UNUSED, 0, 0, 0, 0, 0⟩

theorem picks_best_twoReady : idleCpu.locks.Holds ∅ ∧ ∃ t' c' r, priority_scheduler (twoReady 7 5) idleCpu = .ok (t', c', r)
    ∧ Serves (twoReady 7 5) (fun p q => ¬ (twoReady 7 5 q).before (twoReady 7 5 p)
        ∧ (q < p → (twoReady 7 5 p).before (twoReady 7 5 q))) SProc.scheduled t' c' r :=
  ⟨idleCpu_holds, picks_best (twoReady 7 5) idleCpu_holds⟩

example : (priority_scheduler (twoReady 7 5) idleCpu).toOption.map (·.2.2) = some (some 2) := by decide +kernel

theorem twoReady_created (t₁ t₂ : UInt32) (p : Slot) (hp : (twoReady t₁.toUInt64 t₂.toUInt64 p).state = .RUNNABLE) :
    (twoReady t₁.toUInt64 t₂.toUInt64 p).start_ticks = (if p = 1 then t₁ else t₂).toUInt64 := by
  unfold twoReady at hp ⊢
  split
  · rfl
  rename_i h₁
  rw [if_neg h₁] at hp
  split
  · rfl
  · rename_i h₂
    rw [if_neg h₂] at hp
    cases hp

theorem first_come_twoReady : idleCpu.locks.Holds ∅
    ∧ (∀ p, (twoReady (7 : UInt32).toUInt64 (5 : UInt32).toUInt64 p).state = .RUNNABLE →
        (twoReady (7 : UInt32).toUInt64 (5 : UInt32).toUInt64 p).start_ticks = (if p = 1 then (7 : UInt32) else 5).toUInt64)
    ∧ ∃ t' c' r, fcfs_scheduler (twoReady (7 : UInt32).toUInt64 (5 : UInt32).toUInt64) idleCpu = .ok (t', c', r)
      ∧ Serves (twoReady (7 : UInt32).toUInt64 (5 : UInt32).toUInt64)
          (fun p q => (twoReady (7 : UInt32).toUInt64 (5 : UInt32).toUInt64 p).start_ticks
              ≤ (twoReady (7 : UInt32).toUInt64 (5 : UInt32).toUInt64 q).start_ticks
            ∧ ((twoReady (7 : UInt32).toUInt64 (5 : UInt32).toUInt64 q).start_ticks
              = (twoReady (7 : UInt32).toUInt64 (5 : UInt32).toUInt64 p).start_ticks → p ≤ q))
          (fun x => { x with state := .RUNNING }) t' c' r :=
  ⟨idleCpu_holds, twoReady_created 7 5, first_come (twoReady_created 7 5) idleCpu_holds⟩

theorem orderly_locks_idleCpu : idleCpu.locks.Holds ∅
    ∧ (∀ t, Dated t → ∃ t' c' r, fcfs_scheduler t idleCpu = .ok (t', c', r) ∧ Orderly c' r)
    ∧ (∀ t, ∃ t' c' r, priority_scheduler t idleCpu = .ok (t', c', r) ∧ Orderly c' r)
    ∧ ∀ s ticks, ∃ s' c' r, lottery_scheduler s ticks idleCpu = .ok (s', c', r) ∧ Orderly c' r :=
  ⟨idleCpu_holds, orderly_locks idleCpu_holds⟩

/-- **A process started at time 2^64 - 1**: the one found after it is taken for the first, and two locks are held at the
`swtch`. -/
theorem sentinel_leaks : ∃ t' c', fcfs_scheduler (twoReady noTicks 5) idleCpu = .ok (t', c', some 2)
    ∧ c'.locks.held 1 = true ∧ c'.locks.noff = 2 := by
  have htest : (fcfs_scheduler (twoReady noTicks 5) idleCpu).toOption.any (fun x =>
      decide (x.2.2 = some 2) && x.2.1.locks.held 1 && decide (x.2.1.locks.noff = 2)) = true := by
    decide +kernel
  cases hrun : fcfs_scheduler (twoReady noTicks 5) idleCpu with
  | error e =>
    rw [hrun] at htest
    cases htest
  | ok x =>
    rw [hrun] at htest
    obtain ⟨t', c', r⟩ := x
    simp only [Except.toOption, Option.any_some, Bool.and_eq_true, decide_eq_true_eq] at htest
    obtain ⟨⟨rfl, hheld⟩, hnoff⟩ := htest
    exact ⟨t', c', rfl, hheld, hnoff⟩

end Xv6.Select
