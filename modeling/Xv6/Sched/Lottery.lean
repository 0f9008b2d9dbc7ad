/-
  Xv6.Sched.Lottery — the lottery scheduler (`lottery_scheduler`, `rand`,
  `settickets` of `kernel/proc.c`; the LBS build).

  `lottery_scheduler` holds the locks of all processes.  A first pass adds up
  the tickets of the RUNNABLE ones, a draw is taken modulo the sum, and a
  second pass adds them up again until the sum reaches the draw.  An `int` is
  an `Int32`; its addition wraps.

  The second pass stops at a sum of at least the draw, not above it.  So the
  draws of a process are those above the tickets before it, up to and with
  its own last one, and draw 0 belongs to the first process.

  Main results:
    * `draws_card` — how many draws select a process,
    * `fair` — as many as it has tickets, unless it is the first or the last
      RUNNABLE process among several,
    * `dispatches` — with tickets between 1 and `INT_MAX / NPROC` the lottery
      always dispatches a RUNNABLE process.
-/
import Xv6.Proc.State
import Xv6.Lib.Runs

namespace Xv6

/-! ## §1. `lottery_scheduler`. -/

/-- the LBS view of `struct proc` -/
structure LProc where
  state : ProcState
  tickets : Int32

/-- The tickets and the random number generator. -/
structure Lottery where
  proc : Slot → LProc
  /-- `next` in `rand` -/
  next : UInt64

/-- `rand()` at time `ticks` -/
def rand (next : UInt64) (ticks : UInt32) : UInt64 × Int32 :=
  let next := next * 1103515245 + ticks.toUInt64
  (next, ((next / 65536).toUInt32 % 32768).toInt32)

namespace Lottery

/-- The process may win. -/
def runnable (s : Lottery) (p : Slot) : Prop := (s.proc p).state = .RUNNABLE

instance (s : Lottery) (p : Slot) : Decidable (s.runnable p) := inferInstanceAs (Decidable (_ = _))

/-- The first pass. -/
def total_tickets (s : Lottery) : Int32 :=
  (List.finRange NPROC).foldl (fun total p => if s.runnable p then total + (s.proc p).tickets else total) 0

/-- One turn of the second pass; `flag` is set once there is a winner. -/
def scanTurn (s : Lottery) (tochoose : Int32) (x : Int32 × Option Slot) (p : Slot) : Int32 × Option Slot :=
  if s.runnable p then
    let curr := x.1 + (s.proc p).tickets
    if curr ≥ tochoose ∧ x.2 = none then (curr, some p) else (curr, x.2)
  else x

/-- The second pass. -/
def win (s : Lottery) (tochoose : Int32) : Option Slot :=
  ((List.finRange NPROC).foldl (s.scanTurn tochoose) (0, none)).2

/-- A slot changes. -/
def setProc (s : Lottery) (p : Slot) (x : LProc) : Lottery := { s with proc := Function.update s.proc p x }

/-- The body of `lottery_scheduler`, with what its call of `rand` leaves and returns. -/
def lottery (s : Lottery) (draw : UInt64 × Int32) : Lottery × Option Slot :=
  if s.total_tickets = 0 then (s, none)
  else
    let s' := { s with next := draw.1 }
    match s.win (draw.2 % s.total_tickets) with
    | none => (s', none)
    | some p =>
      if (s.proc p).state ≠ .RUNNABLE then (s', none)
      else (s'.setProc p { s.proc p with state := .RUNNING }, some p)

/-- `lottery_scheduler(c)`: the process it switches to. -/
def lottery_scheduler (s : Lottery) (ticks : UInt32) : Lottery × Option Slot := s.lottery (rand s.next ticks)

/-! ## §2. Sums of tickets. -/

variable {s : Lottery} {p : Slot}

/-- What a slot adds to the sum. -/
def weight (s : Lottery) (p : Slot) : Nat := if s.runnable p then (s.proc p).tickets.toInt.toNat else 0

/-- The tickets of some slots together. -/
def weights (s : Lottery) (ps : List Slot) : Nat := (ps.map s.weight).sum

@[simp] theorem weights_nil : s.weights [] = 0 := rfl

@[simp] theorem weights_cons (ps : List Slot) : s.weights (p :: ps) = s.weight p + s.weights ps := List.sum_cons

theorem weights_append (ps qs : List Slot) : s.weights (ps ++ qs) = s.weights ps + s.weights qs := by
  rw [weights, List.map_append, List.sum_append]
  rfl

/-- The largest `int`. -/
def INT_MAX : Nat := 2147483647

/-- Every RUNNABLE process has a ticket, and the sum is an `int`. -/
structure Fits (s : Lottery) : Prop where
  pos : ∀ p, s.runnable p → 1 ≤ (s.proc p).tickets.toInt
  total : s.weights (List.finRange NPROC) ≤ INT_MAX

variable (h : s.Fits)
include h

theorem Fits.weight_eq (hp : s.runnable p) : (s.weight p : Int) = (s.proc p).tickets.toInt := by
  have hpos := h.pos p hp
  rw [weight, if_pos hp]
  omega

/-- Adding the tickets of a process does not overflow. -/
theorem Fits.toInt_add (hp : s.runnable p) {x : Int32} {c : Nat} (hx : x.toInt = c)
    (hfit : c + s.weight p ≤ INT_MAX) : (x + (s.proc p).tickets).toInt = (c + s.weight p : Nat) := by
  have hmax : INT_MAX = 2147483647 := rfl
  rw [Int32.toInt_add, hx, ← h.weight_eq hp]
  rw [Int.bmod_eq_of_le (by omega) (by omega)]
  push_cast
  rfl

/-- **The first pass does not overflow.**  The induction is on the slots that are left, the sum being general. -/
theorem Fits.foldl_total (ps : List Slot) :
    ∀ (x : Int32) (c : Nat), x.toInt = c → c + s.weights ps ≤ INT_MAX →
      (ps.foldl (fun total p => if s.runnable p then total + (s.proc p).tickets else total) x).toInt
        = (c + s.weights ps : Nat) := by
  induction ps with
  | nil =>
    intro x c hx _
    exact hx
  | cons p ps ih =>
    intro x c hx hfit
    rw [weights_cons] at hfit ⊢
    rw [List.foldl_cons]
    by_cases hp : s.runnable p
    · rw [if_pos hp, ih _ _ (h.toInt_add hp hx (by omega)) (by omega)]
      congr 1
      omega
    · have hw : s.weight p = 0 := if_neg hp
      rw [if_neg hp, ih x c hx (by omega), hw]
      congr 1
      omega

theorem Fits.total_eq : s.total_tickets.toInt = s.weights (List.finRange NPROC) := by
  have hsum := h.foldl_total (List.finRange NPROC) 0 0 rfl (by rw [Nat.zero_add]; exact h.total)
  rw [Nat.zero_add] at hsum
  exact hsum

omit h

/-! ## §3. Who wins. -/

variable {tochoose : Int32}

/-- A winner stays. -/
theorem foldl_scanTurn_some (ps : List Slot) :
    ∀ (x : Int32) (q : Slot), (ps.foldl (s.scanTurn tochoose) (x, some q)).2 = some q := by
  induction ps with
  | nil => exact fun _ _ => rfl
  | cons p ps ih =>
    intro x q
    rw [List.foldl_cons, scanTurn]
    split
    · rw [if_neg (fun hw => nomatch hw.2)]
      exact ih _ q
    · exact ih x q

/-- The second pass from a sum of `x` on. -/
def scan (s : Lottery) (tochoose : Int32) (ps : List Slot) (x : Int32) : Option Slot :=
  (ps.foldl (s.scanTurn tochoose) (x, none)).2

theorem scan_cons_of_runnable (hp : s.runnable p) (ps : List Slot) (x : Int32) :
    s.scan tochoose (p :: ps) x
      = if tochoose ≤ x + (s.proc p).tickets then some p else s.scan tochoose ps (x + (s.proc p).tickets) := by
  unfold scan
  rw [List.foldl_cons, scanTurn, if_pos hp]
  by_cases hle : tochoose ≤ x + (s.proc p).tickets
  · have hwin : x + (s.proc p).tickets ≥ tochoose ∧ (none : Option Slot) = none := ⟨hle, rfl⟩
    rw [if_pos hle]
    rw [if_pos hwin]
    exact foldl_scanTurn_some ps _ p
  · rw [if_neg hle]
    rw [if_neg fun hwin => hle hwin.1]

theorem scan_cons_of_not (hp : ¬ s.runnable p) (ps : List Slot) (x : Int32) :
    s.scan tochoose (p :: ps) x = s.scan tochoose ps x := by
  unfold scan
  rw [List.foldl_cons, scanTurn, if_neg hp]

theorem scan_mem (ps : List Slot) : ∀ {x : Int32} {q : Slot}, s.scan tochoose ps x = some q → q ∈ ps ∧ s.runnable q := by
  induction ps with
  | nil => exact fun h => nomatch h
  | cons p ps ih =>
    intro x q h
    by_cases hp : s.runnable p
    · rw [scan_cons_of_runnable hp] at h
      split at h
      · cases h
        exact ⟨List.mem_cons_self, hp⟩
      · exact ⟨List.mem_cons_of_mem _ (ih h).1, (ih h).2⟩
    · rw [scan_cons_of_not hp] at h
      exact ⟨List.mem_cons_of_mem _ (ih h).1, (ih h).2⟩

/-- Slots that are not RUNNABLE add nothing. -/
theorem weights_of_not {ps : List Slot} (h : ∀ q ∈ ps, ¬ s.runnable q) : s.weights ps = 0 := by
  induction ps with
  | nil => rfl
  | cons p ps ih =>
    have hw : s.weight p = 0 := if_neg (h p List.mem_cons_self)
    rw [weights_cons, hw, ih fun q hq => h q (List.mem_cons_of_mem _ hq)]

include h

/-- RUNNABLE ones do. -/
theorem Fits.weight_pos (hp : s.runnable p) : 0 < s.weight p := by
  have hpos := h.pos p hp
  have hw := h.weight_eq hp
  omega

/-- The comparison of the second pass. -/
theorem Fits.le_iff (hp : s.runnable p) {x : Int32} {c d : Nat} (hx : x.toInt = c)
    (hd : tochoose.toInt = d) (hfit : c + s.weight p ≤ INT_MAX) :
    tochoose ≤ x + (s.proc p).tickets ↔ d ≤ c + s.weight p := by
  rw [Int32.le_iff_toInt_le, hd, h.toInt_add hp hx hfit]
  omega

/-- **Who wins a draw.**  The induction is on the slots before `p`, the sum being general. -/
theorem Fits.scan_iff (qs : List Slot) (hp : s.runnable p) {d : Nat} (hd : tochoose.toInt = d) :
    ∀ (ps : List Slot) (x : Int32) (c : Nat), x.toInt = c → p ∉ ps → p ∉ qs →
      c + s.weights (ps ++ p :: qs) ≤ INT_MAX → (s.scan tochoose (ps ++ p :: qs) x = some p ↔
        d ≤ c + s.weights ps + s.weight p ∧ ((∀ q ∈ ps, ¬ s.runnable q) ∨ c + s.weights ps < d)) := by
  intro ps
  induction ps with
  | nil =>
    intro x c hx _ hqs hfit
    rw [List.nil_append, weights_cons] at hfit
    have hle := h.le_iff hp hx hd (by omega)
    rw [List.nil_append, scan_cons_of_runnable hp, weights_nil]
    constructor
    · intro hwin
      split at hwin
      · rename_i hreach
        exact ⟨hle.mp hreach, .inl fun q hq => nomatch hq⟩
      · exact absurd (scan_mem qs hwin).1 hqs
    · intro hwin
      rw [if_pos (hle.mpr hwin.1)]
  | cons q ps ih =>
    intro x c hx hps hqs hfit
    rw [List.cons_append, weights_cons] at hfit
    have hne : q ≠ p := fun heq => hps (heq ▸ List.mem_cons_self)
    have hps' : p ∉ ps := fun hmem => hps (List.mem_cons_of_mem _ hmem)
    by_cases hq : s.runnable q
    · have hsum := h.toInt_add hq hx (by omega)
      have hle := h.le_iff hq hx hd (by omega)
      rw [List.cons_append, scan_cons_of_runnable hq, weights_cons]
      by_cases hreach : d ≤ c + s.weight q
      · -- `q` takes the draw
        rw [if_pos (hle.mpr hreach)]
        refine iff_of_false (fun heq => hne (Option.some.inj heq)) ?_
        rintro ⟨-, hno | hlt⟩
        · exact hno q List.mem_cons_self hq
        · omega
      rw [if_neg (mt hle.mp hreach)]
      rw [ih _ _ hsum hps' hqs (by omega)]
      have hzero : (∀ r ∈ ps, ¬ s.runnable r) → s.weights ps = 0 := weights_of_not
      constructor
      · rintro ⟨hle, hno | hlt⟩
        · exact ⟨by omega, .inr (by have := hzero hno; omega)⟩
        · exact ⟨by omega, .inr (by omega)⟩
      · rintro ⟨hle, hno | hlt⟩
        · exact absurd hq (hno q List.mem_cons_self)
        · exact ⟨by omega, .inr (by omega)⟩
    · have hw : s.weight q = 0 := if_neg hq
      rw [List.cons_append, scan_cons_of_not hq, weights_cons, hw, Nat.zero_add,
        ih x c hx hps' hqs (by omega), List.forall_mem_cons]
      simp only [hq, not_false_eq_true, true_and]

/-- Some RUNNABLE process wins a draw below the sum. -/
theorem Fits.scan_some {d : Nat} (hd : tochoose.toInt = d) (ps : List Slot) :
    ∀ (x : Int32) (c : Nat), x.toInt = c → c + s.weights ps ≤ INT_MAX → d ≤ c + s.weights ps →
      (∃ q ∈ ps, s.runnable q) → ∃ q, s.scan tochoose ps x = some q := by
  induction ps with
  | nil => exact fun _ _ _ _ _ hq => nomatch hq.choose_spec.1
  | cons p ps ih =>
    intro x c hx hfit hle hsome
    rw [weights_cons] at hfit hle
    by_cases hp : s.runnable p
    · have hsum := h.toInt_add hp hx (by omega)
      have hreach := h.le_iff hp hx hd (by omega)
      rw [scan_cons_of_runnable hp]
      by_cases hwin : d ≤ c + s.weight p
      · exact ⟨p, if_pos (hreach.mpr hwin)⟩
      rw [if_neg (mt hreach.mp hwin)]
      refine ih _ _ hsum (by omega) (by omega) ?_
      -- the sum goes on, so a later process is RUNNABLE
      by_contra hno
      have hzero : s.weights ps = 0 := weights_of_not fun q hq hr => hno ⟨q, hq, hr⟩
      omega
    · have hw : s.weight p = 0 := if_neg hp
      rw [scan_cons_of_not hp]
      refine ih x c hx (by omega) (by omega) ?_
      obtain ⟨q, hq, hr⟩ := hsome
      rcases List.mem_cons.mp hq with rfl | hq
      · exact absurd hr hp
      · exact ⟨q, hq, hr⟩

/-! ## §4. Fairness. -/

/-- The draws below the sum that select `p`. -/
def draws (s : Lottery) (p : Slot) : Finset Nat :=
  (Finset.range s.total_tickets.toInt.toNat).filter fun d => s.win (Int32.ofNat d) = some p

/-- No process before `p` is RUNNABLE. -/
def First (s : Lottery) (p : Slot) : Prop := ∀ q < p, ¬ s.runnable q

/-- No process after `p` is RUNNABLE. -/
def Last (s : Lottery) (p : Slot) : Prop := ∀ q, p < q → ¬ s.runnable q

instance (s : Lottery) (p : Slot) : Decidable (s.First p) := inferInstanceAs (Decidable (∀ _, _))

instance (s : Lottery) (p : Slot) : Decidable (s.Last p) := inferInstanceAs (Decidable (∀ _, _))

omit h in
/-- The table around a slot. -/
theorem finRange_split (p : Slot) :
    ∃ ps qs, List.finRange NPROC = ps ++ p :: qs ∧ (∀ q, q ∈ ps ↔ q < p) ∧ ∀ q, q ∈ qs ↔ p < q := by
  obtain ⟨ps, qs, hsplit⟩ := List.append_of_mem (List.mem_finRange p)
  have hsorted := List.pairwise_lt_finRange NPROC
  rw [hsplit, List.pairwise_append, List.pairwise_cons] at hsorted
  obtain ⟨-, ⟨hqs, -⟩, hps⟩ := hsorted
  have hmem : ∀ q, q ∈ ps ∨ q = p ∨ q ∈ qs := by
    intro q
    have hq := List.mem_finRange q
    rwa [hsplit, List.mem_append, List.mem_cons] at hq
  have hlo : ∀ q ∈ ps, q < p := fun q hq => hps q hq p List.mem_cons_self
  refine ⟨ps, qs, hsplit, fun q => ⟨hlo q, fun hlt => ?_⟩, fun q => ⟨hqs q, fun hlt => ?_⟩⟩
  · rcases hmem q with hq | rfl | hq
    · exact hq
    · exact absurd hlt (lt_irrefl _)
    · exact absurd (hqs q hq) (lt_asymm hlt)
  · rcases hmem q with hq | rfl | hq
    · exact absurd (hlo q hq) (lt_asymm hlt)
    · exact absurd hlt (lt_irrefl _)
    · exact hq

theorem Fits.weights_eq_zero {ps : List Slot} : s.weights ps = 0 ↔ ∀ q ∈ ps, ¬ s.runnable q := by
  refine ⟨fun hzero q hq hr => ?_, weights_of_not⟩
  have hpos := h.weight_pos hr
  have hle : s.weight q ≤ s.weights ps := List.single_le_sum (by simp) _ (List.mem_map_of_mem hq)
  omega

/-- **How many draws select a process**: one more than its tickets for the first RUNNABLE process, one less for the
last. -/
theorem Fits.draws_card (hp : s.runnable p) :
    (s.draws p).card + (if s.Last p then 1 else 0) = s.weight p + if s.First p then 1 else 0 := by
  obtain ⟨ps, qs, hsplit, hps, hqs⟩ := finRange_split p
  have htotal := h.total
  have hsum := h.total_eq
  have hW : s.weights (List.finRange NPROC) = s.weights ps + (s.weight p + s.weights qs) := by
    rw [hsplit, weights_append, weights_cons]
  have hfirst : s.First p ↔ s.weights ps = 0 := by
    rw [h.weights_eq_zero]
    exact forall_congr' fun q => by rw [hps]
  have hlast : s.Last p ↔ s.weights qs = 0 := by
    rw [h.weights_eq_zero]
    exact forall_congr' fun q => by rw [hqs]
  have hpos := h.weight_pos hp
  have hmax : INT_MAX = 2147483647 := rfl
  have hdraws : s.draws p = Finset.Ico (if s.First p then 0 else s.weights ps + 1)
      (if s.Last p then s.weights ps + s.weight p else s.weights ps + s.weight p + 1) := by
    ext d
    rw [draws, Finset.mem_filter, Finset.mem_range, hsum, hW, Int.toNat_natCast, Finset.mem_Ico]
    by_cases hd : d < s.weights ps + (s.weight p + s.weights qs)
    · have hto : (Int32.ofNat d).toInt = d := Int32.toInt_ofNat_of_lt (by omega)
      have hwin := h.scan_iff qs hp hto ps 0 0 rfl (fun hmem => lt_irrefl _ ((hps p).mp hmem))
        (fun hmem => lt_irrefl _ ((hqs p).mp hmem)) (by rw [← hsplit, Nat.zero_add]; exact htotal)
      rw [← hsplit, Nat.zero_add] at hwin
      have hfst : (∀ q ∈ ps, ¬ s.runnable q) ↔ s.First p := h.weights_eq_zero.symm.trans hfirst.symm
      rw [show s.win (Int32.ofNat d) = some p ↔ _ from hwin, hfst]
      have hhi : d < (if s.Last p then s.weights ps + s.weight p else s.weights ps + s.weight p + 1)
          ↔ d ≤ s.weights ps + s.weight p := by
        by_cases hl : s.Last p
        · have hzero := hlast.mp hl
          rw [if_pos hl]
          omega
        · rw [if_neg hl]
          omega
      rw [hhi]
      by_cases hf : s.First p
      · simp only [hf, hd, true_or, and_true, true_and, if_true, Nat.zero_le]
      · simp only [hf, hd, false_or, true_and, if_false]
        omega
    · refine iff_of_false (fun hmem => hd hmem.1) fun hmem => ?_
      by_cases hl : s.Last p
      · rw [if_pos hl] at hmem
        omega
      · have hne := mt hlast.mpr hl
        rw [if_neg hl] at hmem
        omega
  rw [hdraws, Nat.card_Ico]
  by_cases hf : s.First p
  · have hzero := hfirst.mp hf
    by_cases hl : s.Last p
    · simp only [hf, hl, if_true]
      omega
    · simp only [hf, hl, if_true, if_false]
      omega
  · by_cases hl : s.Last p
    · simp only [hf, hl, if_true, if_false]
      omega
    · simp only [hf, hl, if_false]
      omega

omit h

/-- **The lottery is fair** to a process that is neither the first nor the last RUNNABLE one, and to the only one. -/
theorem fair (h : s.Fits) (hp : s.runnable p) (hend : s.First p ↔ s.Last p) :
    ((s.draws p).card : Int) = (s.proc p).tickets.toInt ∧ (s.draws p).Nonempty := by
  have hcard := h.draws_card hp
  have hpos := h.weight_pos hp
  rw [← h.weight_eq hp, ← Finset.card_pos]
  by_cases hf : s.First p
  · rw [if_pos hf, if_pos (hend.mp hf)] at hcard
    omega
  · rw [if_neg hf, if_neg (mt hend.mpr hf)] at hcard
    omega

/-- Three RUNNABLE processes with 1, 2 and 3 tickets. -/
def three : Lottery where
  proc := fun p => if p.val < 3 then ⟨.RUNNABLE, Int32.ofNat (p.val + 1)⟩ else ⟨.UNUSED, 0⟩
  next := 1

theorem three_fits : three.Fits := ⟨by decide, by decide⟩

theorem fair_three : three.runnable 1 ∧ ((three.draws 1).card : Int) = 2 := by
  have hp : three.runnable 1 := by decide
  exact ⟨hp, (fair three_fits hp (by decide)).1⟩

/-- Two RUNNABLE processes with the ticket each process has by default. -/
def two : Lottery where
  proc := fun p => if p.val < 2 then ⟨.RUNNABLE, 1⟩ else ⟨.UNUSED, 0⟩
  next := 1

/-- **The last process is never selected**: both draws select the first. -/
theorem last_starves : two.Fits ∧ two.runnable 1 ∧ (two.proc 1).tickets = 1 ∧ two.draws 1 = ∅ ∧ (two.draws 0).card = 2 :=
  ⟨⟨by decide, by decide⟩, by decide, rfl, by decide, by decide⟩

/-! ## §5. Tickets over a run. -/

/-- What changes tickets and states. -/
inductive Step where
  /-- `fork()`; `ok` is whether `allocproc` and `uvmcopy` find the memory they need -/
  | fork (p : Slot) (ok : Bool)
  | settickets (p : Slot) (number : Int32)
  | yield (p : Slot)
  | sleep (p : Slot)
  /-- `wakeup()` and `kill()` make a sleeping process RUNNABLE -/
  | wakeup (p : Slot)
  | exit (p : Slot)
  /-- `wait()` frees a zombie -/
  | wait (p : Slot)
  | schedule (ticks : UInt32)

/-- The step is not enabled. -/
inductive Fault where
  | disabled

/-- `freeproc(p)` -/
def freeproc (s : Lottery) (p : Slot) : Lottery := s.setProc p ⟨.UNUSED, 0⟩

/-- A process changes its state. -/
def move (s : Lottery) (p : Slot) (old new : ProcState) : Except Fault Lottery :=
  if (s.proc p).state = old then .ok (s.setProc p { s.proc p with state := new }) else .error .disabled

/-- What a step does. -/
def step (s : Lottery) : Step → Except Fault Lottery
  | .fork p ok =>
    if (s.proc p).state ≠ .RUNNING then .error .disabled
    else
      match (List.finRange NPROC).find? fun c => (s.proc c).state = .UNUSED with
      | none => .ok s
      -- `allocproc` gives the child one ticket, `fork` then those of its parent
      | some c => .ok (if ok then s.setProc c ⟨.RUNNABLE, (s.proc p).tickets⟩ else s.freeproc c)
  | .settickets p number =>
    if (s.proc p).state = .RUNNING then .ok (s.setProc p { s.proc p with tickets := number }) else .error .disabled
  | .yield p => s.move p .RUNNING .RUNNABLE
  | .sleep p => s.move p .RUNNING .SLEEPING
  | .wakeup p => s.move p .SLEEPING .RUNNABLE
  | .exit p => s.move p .RUNNING .ZOMBIE
  | .wait p => if (s.proc p).state = .ZOMBIE then .ok (s.freeproc p) else .error .disabled
  | .schedule ticks => .ok (s.lottery_scheduler ticks).1

/-- After `userinit()`. -/
def boot : Lottery where
  proc := fun p => if p = initproc then ⟨.RUNNABLE, 1⟩ else ⟨.UNUSED, 0⟩
  next := 1

/-- Tickets of which `NPROC` times as many are an `int`. -/
def Modest (number : Int32) : Prop := 1 ≤ number.toInt ∧ number.toInt ≤ INT_MAX / NPROC

instance (number : Int32) : Decidable (Modest number) := inferInstanceAs (Decidable (_ ∧ _))

/-- `settickets` is called with such numbers. -/
def setsModest (_ : Lottery) : Step → Prop
  | .settickets _ number => Modest number
  | _ => True

instance (s : Lottery) (x : Step) : Decidable (s.setsModest x) := by
  cases x <;> unfold setsModest <;> infer_instance

/-- Every process has tickets. -/
def Ticketed (s : Lottery) : Prop := ∀ p, (s.proc p).state ≠ .UNUSED → Modest (s.proc p).tickets

theorem Ticketed.setProc (h : s.Ticketed) {x : LProc} (hx : x.state ≠ .UNUSED → Modest x.tickets) :
    (s.setProc p x).Ticketed := by
  intro q hq
  by_cases hqp : q = p
  · subst hqp
    have hself : (s.setProc q x).proc q = x := Function.update_self ..
    rw [hself] at hq ⊢
    exact hx hq
  · have hother : (s.setProc p x).proc q = s.proc q := Function.update_of_ne hqp ..
    rw [hother] at hq ⊢
    exact h q hq

theorem Ticketed.move (h : s.Ticketed) {s' : Lottery} {old new : ProcState} (hold : old ≠ .UNUSED)
    (hrun : s.move p old new = .ok s') : s'.Ticketed := by
  obtain ⟨hst, rfl⟩ := Lib.guard_ok hrun
  exact h.setProc fun _ => h p (by rw [hst]; exact hold)

theorem Ticketed.lottery (h : s.Ticketed) (draw : UInt64 × Int32) : (s.lottery draw).1.Ticketed := by
  unfold Lottery.lottery
  have hnext : { s with next := draw.1 }.Ticketed := h
  split
  · exact h
  split
  · exact hnext
  rename_i p _
  split
  · exact hnext
  · rename_i hst
    have hrun : (s.proc p).state = .RUNNABLE := not_not.mp hst
    exact hnext.setProc fun _ => h p (by rw [hrun]; nofun)

/-- **A step keeps the tickets modest.** -/
theorem Ticketed.step (h : s.Ticketed) {s' : Lottery} {x : Step} (hok : s.setsModest x) (hstep : s.step x = .ok s') :
    s'.Ticketed := by
  cases x with
  | fork p ok =>
    simp only [Lottery.step] at hstep
    split at hstep
    · cases hstep
    rename_i hst
    have hrun : (s.proc p).state = .RUNNING := not_not.mp hst
    split at hstep
    · cases hstep
      exact h
    · cases hstep
      split
      · exact h.setProc fun _ => h p (by rw [hrun]; nofun)
      · exact h.setProc fun hne => absurd rfl hne
  | settickets p number =>
    obtain ⟨-, rfl⟩ := Lib.guard_ok hstep
    exact h.setProc fun _ => hok
  | yield p | sleep p | wakeup p | exit p => exact h.move (by nofun) hstep
  | wait p =>
    obtain ⟨-, rfl⟩ := Lib.guard_ok hstep
    exact h.setProc fun hne => absurd rfl hne
  | schedule ticks =>
    cases hstep
    exact h.lottery _

/-- Modest tickets do not overflow. -/
theorem Ticketed.fits (h : s.Ticketed) : s.Fits := by
  have hmod : ∀ p, s.runnable p → Modest (s.proc p).tickets := fun p hp =>
    h p (by rw [show (s.proc p).state = .RUNNABLE from hp]; nofun)
  have hdiv : INT_MAX / NPROC = 33554431 := rfl
  have hweight : ∀ p, s.weight p ≤ 33554431 := by
    intro p
    unfold weight
    split
    · rename_i hp
      have hle := (hmod p hp).2
      omega
    · omega
  have hsum : ∀ ps : List Slot, s.weights ps ≤ 33554431 * ps.length := by
    intro ps
    induction ps with
    | nil => exact Nat.le_refl 0
    | cons p ps ih =>
      have hp := hweight p
      rw [weights_cons, List.length_cons]
      omega
  refine ⟨fun p hp => (hmod p hp).1, ?_⟩
  have hall := hsum (List.finRange NPROC)
  exact hall.trans (by decide)

/-- `rand()` is not negative. -/
theorem rand_nonneg (next : UInt64) (ticks : UInt32) : 0 ≤ (rand next ticks).2.toInt := by
  have hlt : ∀ u : UInt32, 0 ≤ (u % 32768).toInt32.toInt := by
    intro u
    have hmod : (u % 32768).toNat = u.toNat % 32768 := UInt32.toNat_mod u 32768
    have hmsb : 2 * (u % 32768).toBitVec.toNat < 2 ^ 32 := by
      show 2 * (u % 32768).toNat < 2 ^ 32
      omega
    show 0 ≤ (u % 32768).toBitVec.toInt
    rw [BitVec.toInt_eq_toNat_of_lt hmsb]
    exact Int.natCast_nonneg _
  exact hlt _

/-- **The lottery always dispatches** a RUNNABLE process if there is one. -/
theorem dispatches (h : Lib.Reach (· = boot) setsModest step s) (hsome : ∃ p, s.runnable p) (ticks : UInt32) :
    s.total_tickets.toInt = s.weights (List.finRange NPROC) ∧ 0 < s.total_tickets.toInt
      ∧ ∃ p, s.runnable p ∧ s.lottery_scheduler ticks = ({ proc := Function.update s.proc p { s.proc p with state := .RUNNING }, next := (rand s.next ticks).1 }, some p) := by
  have hfits : s.Fits := by
    refine Ticketed.fits (h.invariant ?_ ?_)
    · rintro s rfl p hp
      unfold boot at hp ⊢
      dsimp only at hp ⊢
      split
      · decide
      · rename_i hne
        rw [if_neg hne] at hp
        exact absurd rfl hp
    · intro s x s' hs hok hstep
      exact hs.step hok hstep
  have htotal := hfits.total_eq
  have hpos : 0 < s.weights (List.finRange NPROC) := by
    obtain ⟨p, hp⟩ := hsome
    by_contra hzero
    exact hfits.weights_eq_zero.mp (by omega) p (List.mem_finRange p) hp
  refine ⟨htotal, by omega, ?_⟩
  -- the draw is below the sum
  have hdraw : ((rand s.next ticks).2 % s.total_tickets).toInt
      = ((rand s.next ticks).2.toInt.toNat % s.weights (List.finRange NPROC) : Nat) := by
    have hnonneg := rand_nonneg s.next ticks
    rw [Int32.toInt_mod, htotal, Int.tmod_eq_emod_of_nonneg hnonneg, Int.natCast_emod, Int.toNat_of_nonneg hnonneg]
  have hlt := Nat.mod_lt (rand s.next ticks).2.toInt.toNat hpos
  obtain ⟨p, hp⟩ := hsome
  obtain ⟨q, hq⟩ := hfits.scan_some hdraw (List.finRange NPROC) 0 0 rfl (by rw [Nat.zero_add]; exact hfits.total)
    (by omega) ⟨p, List.mem_finRange p, hp⟩
  have hr := (scan_mem _ hq).2
  refine ⟨q, hr, ?_⟩
  have hne : s.total_tickets ≠ 0 := by
    intro hzero
    rw [hzero] at htotal
    have : (0 : Int) = s.weights (List.finRange NPROC) := htotal
    omega
  have hwin : s.win ((rand s.next ticks).2 % s.total_tickets) = some q := hq
  unfold lottery_scheduler lottery
  rw [if_neg hne, hwin]
  exact if_neg (not_not.mpr hr)

/-- `settickets(5)` by the first process, which then yields. -/
def fiveRun : List Step := [.schedule 0, .settickets 0 5, .fork 0 true, .yield 0]

theorem dispatches_fiveRun : ∃ s, Lib.Reach (· = boot) setsModest step s ∧ s.total_tickets = 10
    ∧ ∃ p, (s.lottery_scheduler 7).2 = some p := by
  have hrun : ∃ s, Lib.Reach (· = boot) setsModest step s ∧ decide (s.total_tickets = 10 ∧ s.runnable 0) = true :=
    Lib.Reach.of_reaches fiveRun (fun s : Lottery => decide (s.total_tickets = 10 ∧ s.runnable 0)) rfl (by decide)
  obtain ⟨s, hs, htest⟩ := hrun
  have htest := of_decide_eq_true htest
  obtain ⟨-, -, p, -, hp⟩ := dispatches hs ⟨0, htest.2⟩ 7
  exact ⟨s, hs, htest.1, p, by rw [hp]⟩

/-- **A process without tickets idles the machine**: after `settickets(0)` it is RUNNABLE and never dispatched. -/
theorem no_tickets_idle : ∃ s, Lib.Reach (· = boot) (fun _ _ => True) step s ∧ s.runnable 0
    ∧ ∀ ticks, s.lottery_scheduler ticks = (s, none) := by
  have hrun : ∃ s, Lib.Reach (· = boot) (fun _ _ => True) step s
      ∧ decide (s.total_tickets = 0 ∧ s.runnable 0) = true :=
    Lib.Reach.of_reaches [.schedule 0, .settickets 0 0, .yield 0]
      (fun s : Lottery => decide (s.total_tickets = 0 ∧ s.runnable 0)) rfl (by decide)
  obtain ⟨s, hs, htest⟩ := hrun
  have htest := of_decide_eq_true htest
  exact ⟨s, hs, htest.2, fun _ => if_pos htest.1⟩

end Lottery

end Xv6
