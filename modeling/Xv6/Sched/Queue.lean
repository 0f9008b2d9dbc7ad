/-
  Xv6.Sched.Queue — the ring queues of the MLFQ scheduler
  (`que_push` .. `que_empty` of `kernel/proc.c`).

  A queue is an array of NPROC process pointers with `head`, `tail` and
  `size`.  `que_push` has no overflow check: with `size = NPROC` it
  overwrites the front.  Below that bound the queue is a list, read from
  `head` round the end of the array.

  Main results:
    * `que_push_entries` — pushing appends, while there is room,
    * `que_pop_entries`  — popping takes the front away,
    * `ring_deque`       — calls return what they return on a list.
-/
import Xv6.Proc.State
import Xv6.Lib.Ring

namespace Xv6

/-- `struct que` -/
structure Que where
  head : Nat
  tail : Nat
  size : Nat
  procs : Nat → Slot

/-- an empty queue, as `mlfq_init` makes it -/
def Que.empty : Que := ⟨0, 0, 0, fun _ => initproc⟩

/-- `que_push(que, proc)` -/
def que_push (que : Que) (proc : Slot) : Que :=
  let que := if que.size = 0 then { que with head := 0, tail := 0 } else que
  { que with
    procs := Function.update que.procs que.tail proc
    tail := (que.tail + 1) % NPROC
    size := que.size + 1 }

/-- `que_pop(que)`; the null pointer is `none`. -/
def que_pop (que : Que) : Que × Option Slot :=
  if que.size = 0 then (que, none)
  else ({ que with head := (que.head + 1) % NPROC, size := que.size - 1 },
    some (que.procs que.head))

/-- `que_front(que)` -/
def que_front (que : Que) : Option Slot :=
  if que.size = 0 then none else some (que.procs que.head)

/-- `que_empty(que)` -/
def que_empty (que : Que) : Bool := que.size == 0

/-- `que_pushfront(que, proc)` -/
def que_pushfront (que : Que) (proc : Slot) : Que :=
  let que := if que.size = 0 then { que with head := 0, tail := 0 } else que
  -- `head - 1 + NPROC`, of type `int`
  let head := (que.head + NPROC - 1) % NPROC
  { que with head, procs := Function.update que.procs head proc, size := que.size + 1 }

/-- The entries, front first. -/
def Que.entries (que : Que) : List Slot := Lib.window que.procs NPROC que.head que.size

/-- The indices of a queue that never overflowed. -/
structure Que.Ok (que : Que) : Prop where
  head_lt : que.head < NPROC
  size_le : que.size ≤ NPROC
  tail_eq : que.size ≠ 0 → que.tail = (que.head + que.size) % NPROC

theorem Que.empty_ok : Que.empty.Ok := ⟨by decide, by decide, fun h => absurd rfl h⟩

@[simp] theorem Que.empty_entries : Que.empty.entries = [] := rfl

@[simp] theorem Que.entries_length (que : Que) : que.entries.length = que.size :=
  Lib.window_length ..

variable {que : Que}

theorem Que.entries_nil (hz : que.size = 0) : que.entries = [] := by
  rw [← List.length_eq_zero_iff, Que.entries_length, hz]

/-- Before an insertion the indices of an empty queue are reset. -/
theorem Que.Ok.reset (h : que.Ok) : ∃ head tail,
    (if que.size = 0 then { que with head := 0, tail := 0 } else que) = ⟨head, tail, que.size, que.procs⟩
      ∧ head < NPROC ∧ tail = (head + que.size) % NPROC ∧ que.entries = Lib.window que.procs NPROC head que.size := by
  by_cases hz : que.size = 0
  · rw [if_pos hz, Que.entries_nil hz, hz]
    exact ⟨0, 0, rfl, by decide, rfl, rfl⟩
  · rw [if_neg hz]
    exact ⟨que.head, que.tail, rfl, h.head_lt, h.tail_eq hz, rfl⟩

/-- **Pushing** onto a queue with room appends. -/
theorem que_push_entries (h : que.Ok) (hroom : que.size < NPROC) (p : Slot) :
    (que_push que p).Ok ∧ (que_push que p).entries = que.entries ++ [p] := by
  obtain ⟨head, tail, hreset, hhead, htail, hent⟩ := h.reset
  have hpush : que_push que p = ⟨head, (tail + 1) % NPROC, que.size + 1, Function.update que.procs tail p⟩ := by
    rw [que_push, hreset]
  rw [hpush, hent]
  refine ⟨⟨hhead, hroom, fun _ => ?_⟩, ?_⟩
  · show (tail + 1) % NPROC = (head + (que.size + 1)) % NPROC
    rw [htail, Nat.mod_add_mod, Nat.add_assoc]
  · show Lib.window (Function.update que.procs tail p) NPROC head (que.size + 1) = _
    rw [htail]
    exact Lib.window_push que.procs p hroom

/-- **Pushing in front.** -/
theorem que_pushfront_entries (h : que.Ok) (hroom : que.size < NPROC) (p : Slot) :
    (que_pushfront que p).Ok ∧ (que_pushfront que p).entries = p :: que.entries := by
  obtain ⟨head, tail, hreset, hhead, htail, hent⟩ := h.reset
  have hpush : que_pushfront que p = ⟨(head + NPROC - 1) % NPROC, tail, que.size + 1,
      Function.update que.procs ((head + NPROC - 1) % NPROC) p⟩ := by
    rw [que_pushfront, hreset]
  have hnext : head + NPROC - 1 + 1 = head + NPROC := Nat.sub_add_cancel (Nat.le_add_left ..)
  rw [hpush, hent]
  refine ⟨⟨Nat.mod_lt _ (by decide), hroom, fun _ => ?_⟩, ?_⟩
  · show tail = ((head + NPROC - 1) % NPROC + (que.size + 1)) % NPROC
    rw [htail, Nat.mod_add_mod, Nat.add_comm que.size, ← Nat.add_assoc, hnext, Nat.add_right_comm, Nat.add_mod_right]
  · show Lib.window _ NPROC _ (que.size + 1) = _
    rw [Lib.window_congr _ _ (Nat.mod_mod _ _), Lib.window_pushfront _ _ hroom, hnext,
      Lib.window_congr _ _ (Nat.add_mod_right ..)]

/-- The front is the first entry. -/
theorem Que.Ok.entries_cons (h : que.Ok) {k : Nat} (hk : que.size = k + 1) :
    que.entries = que.procs que.head :: Lib.window que.procs NPROC (que.head + 1) k := by
  rw [Que.entries, hk, Lib.window_pop, Nat.mod_eq_of_lt h.head_lt]

theorem que_front_eq (h : que.Ok) : que_front que = que.entries.head? := by
  by_cases hz : que.size = 0
  · simp [que_front, hz, Que.entries_nil hz]
  · obtain ⟨k, hk⟩ := Nat.exists_eq_succ_of_ne_zero hz
    simp [que_front, hz, h.entries_cons hk]

/-- **Popping** takes the front entry away. -/
theorem que_pop_entries (h : que.Ok) : (que_pop que).1.Ok ∧ (que_pop que).1.entries = que.entries.tail
      ∧ (que_pop que).2 = que.entries.head? := by
  by_cases hz : que.size = 0
  · have hpop : que_pop que = (que, none) := by simp [que_pop, hz]
    rw [hpop, Que.entries_nil hz]
    exact ⟨h, rfl, rfl⟩
  obtain ⟨k, hk⟩ := Nat.exists_eq_succ_of_ne_zero hz
  have hpop : que_pop que = (⟨(que.head + 1) % NPROC, que.tail, k, que.procs⟩,
      some (que.procs que.head)) := by
    simp [que_pop, hk]
  have hsize := h.size_le
  have hcells := h.entries_cons hk
  rw [hpop]
  refine ⟨⟨Nat.mod_lt _ (by decide), by show k ≤ NPROC; omega, fun _ => ?_⟩, ?_, ?_⟩
  · show que.tail = ((que.head + 1) % NPROC + k) % NPROC
    rw [h.tail_eq hz, Nat.mod_add_mod, hk]
    congr 1
    omega
  · rw [hcells]
    exact Lib.window_congr _ _ (Nat.mod_mod _ _)
  · rw [hcells]; rfl

/-! ## A deque. -/

/-- A call of one of the five functions. -/
inductive QueOp where
  | push (p : Slot)
  | pushfront (p : Slot)
  | pop
  | front
  | empty

/-- What a call returns. -/
inductive QueRes where
  | void
  | proc (p : Option Slot)
  | bool (b : Bool)
  deriving DecidableEq

/-- A call on the array. -/
def QueOp.onQue (que : Que) : QueOp → Que × QueRes
  | push p => (que_push que p, .void)
  | pushfront p => (que_pushfront que p, .void)
  | pop => ((que_pop que).1, .proc (que_pop que).2)
  | front => (que, .proc (que_front que))
  | empty => (que, .bool (que_empty que))

/-- The call on a list. -/
def QueOp.onList (l : List Slot) : QueOp → List Slot × QueRes
  | push p => (l ++ [p], .void)
  | pushfront p => (p :: l, .void)
  | pop => (l.tail, .proc l.head?)
  | front => (l, .proc l.head?)
  | empty => (l, .bool l.isEmpty)

/-- Calls one after the other, with what they return. -/
def QueOp.run {σ : Type} (f : σ → QueOp → σ × QueRes) : σ → List QueOp → σ × List QueRes
  | s, [] => (s, [])
  | s, op :: ops => ((run f (f s op).1 ops).1, (f s op).2 :: (run f (f s op).1 ops).2)

theorem QueOp.onQue_spec (op : QueOp) (h : que.Ok) (htail : que.tail < NPROC)
    (hroom : (op.onList que.entries).1.length ≤ NPROC) :
    (op.onQue que).1.Ok ∧ (op.onQue que).1.tail < NPROC ∧ (op.onQue que).1.entries = (op.onList que.entries).1
      ∧ (op.onQue que).2 = (op.onList que.entries).2 := by
  cases op with
  | push p =>
    have hsize : que.size + 1 ≤ NPROC := by simpa [onList] using hroom
    obtain ⟨hok, hent⟩ := que_push_entries h hsize p
    exact ⟨hok, Nat.mod_lt _ (by decide), hent, rfl⟩
  | pushfront p =>
    have hsize : que.size + 1 ≤ NPROC := by simpa [onList] using hroom
    obtain ⟨hok, hent⟩ := que_pushfront_entries h hsize p
    refine ⟨hok, ?_, hent, rfl⟩
    show (que_pushfront que p).tail < NPROC
    rw [hok.tail_eq (Nat.succ_ne_zero _)]
    exact Nat.mod_lt _ (by decide)
  | pop =>
    obtain ⟨hok, hent, hres⟩ := que_pop_entries h
    refine ⟨hok, ?_, hent, congrArg QueRes.proc hres⟩
    show (que_pop que).1.tail < NPROC
    unfold que_pop
    split
    · exact htail
    · exact htail
  | front => exact ⟨h, htail, rfl, congrArg QueRes.proc (que_front_eq h)⟩
  | empty =>
    refine ⟨h, htail, rfl, congrArg QueRes.bool ?_⟩
    rw [que_empty, ← Que.entries_length, Bool.eq_iff_iff, beq_iff_eq, List.length_eq_zero_iff, List.isEmpty_iff]

/-- A run that never has more than NPROC elements. -/
theorem QueOp.run_spec (ops : List QueOp) : ∀ {que : Que}, que.Ok → que.tail < NPROC →
    (∀ pre, pre <+: ops → (run onList que.entries pre).1.length ≤ NPROC) →
    (run onQue que ops).1.Ok ∧ (run onQue que ops).1.tail < NPROC
      ∧ (run onQue que ops).1.entries = (run onList que.entries ops).1
      ∧ (run onQue que ops).2 = (run onList que.entries ops).2 := by
  induction ops with
  | nil => exact fun h htail _ => ⟨h, htail, rfl, rfl⟩
  | cons op ops ih =>
    intro que h htail hfit
    obtain ⟨hok, htail', hent, hres⟩ := op.onQue_spec h htail (hfit [op] (List.prefix_append [op] ops))
    have hrest := ih hok htail' (by
      rw [hent]
      exact fun pre hpre => hfit (op :: pre) (List.cons_prefix_cons.mpr ⟨rfl, hpre⟩))
    rw [hent] at hrest
    exact ⟨hrest.1, hrest.2.1, hrest.2.2.1, congrArg₂ List.cons hres hrest.2.2.2⟩

/-- **The ring queue is a deque**: from an empty queue, with never more than NPROC elements, the calls return what they return
on a list, and the indices stay in the array. -/
theorem ring_deque {ops : List QueOp} (h : que.Ok) (htail : que.tail < NPROC) (hempty : que.size = 0)
    (hfit : ∀ pre, pre <+: ops → (QueOp.run QueOp.onList [] pre).1.length ≤ NPROC) :
    (QueOp.run QueOp.onQue que ops).2 = (QueOp.run QueOp.onList [] ops).2
      ∧ (QueOp.run QueOp.onQue que ops).1.entries = (QueOp.run QueOp.onList [] ops).1
      ∧ (QueOp.run QueOp.onQue que ops).1.Ok ∧ (QueOp.run QueOp.onQue que ops).1.tail < NPROC := by
  rw [← Que.entries_nil hempty] at hfit ⊢
  obtain ⟨hok, htail', hent, hres⟩ := QueOp.run_spec ops h htail hfit
  exact ⟨hres, hent, hok, htail'⟩

theorem ring_deque_wrap : (QueOp.run QueOp.onQue Que.empty [.pushfront 3, .push 5, .pop, .pop, .pop]).2
    = [.void, .void, .proc (some 3), .proc (some 5), .proc none] := by
  have hfit : ∀ pre ∈ [QueOp.pushfront 3, .push 5, .pop, .pop, .pop].inits,
      (QueOp.run QueOp.onList [] pre).1.length ≤ NPROC := by decide
  exact (ring_deque Que.empty_ok (by decide) rfl fun pre hpre => hfit pre ((List.mem_inits ..).mpr hpre)).1

end Xv6
