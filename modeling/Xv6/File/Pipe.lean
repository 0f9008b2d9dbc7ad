/-
  Xv6.File.Pipe — pipes (`kernel/pipe.c`).

  The unit of interleaving is a critical section of `pi->lock`: from
  `acquire`, or from the return of `sleep`, up to the next `sleep` or the
  `release`.  `pipewriteSection` and `pipereadSection` run one such section;
  the system lets any number of threads run theirs in any order, with pipe
  ends closed and threads killed in between.

  What user memory does is an input of the section: `copyin` may fail or
  deliver any byte at any address, `copyout` may fail at any address.

  Main results:
    * `Pipe.Holds`    — the buffer holds exactly what was accepted and not
      yet taken,
    * `pipe_fifo`     — it holds after every run, whatever the counters'
      wrap-arounds,
    * `read_consumes` — when a read takes what it reports.
-/
import Xv6.Param
import Xv6.Lib.Runs
import Xv6.Lib.Ring

namespace Xv6

/-! ## §1. The pipe and its critical sections. -/

/-- the size of the buffer -/
def PIPESIZE : UInt32 := 512

/-- `struct pipe`; the counters are free-running 32-bit `uint`s. -/
structure Pipe where
  data : Nat → UInt8
  nread : UInt32
  nwrite : UInt32
  readopen : Bool
  writeopen : Bool

/-- The index `data[n % PIPESIZE]` of a counter. -/
def Pipe.index (n : UInt32) : Nat := (n % PIPESIZE).toNat

/-- What `pipealloc` makes of a page, whose contents are left as they are. -/
def Pipe.alloc (page : Nat → UInt8) : Pipe := ⟨page, 0, 0, true, true⟩

/-- `pi->data[pi->nwrite++ % PIPESIZE] = ch` -/
def Pipe.put (pi : Pipe) (ch : UInt8) : Pipe :=
  { pi with
    data := Function.update pi.data (Pipe.index pi.nwrite) ch
    nwrite := pi.nwrite + 1 }

/-- `pi->data[pi->nread++ % PIPESIZE]` -/
def Pipe.get (pi : Pipe) : Pipe × UInt8 :=
  ({ pi with nread := pi.nread + 1 }, pi.data (Pipe.index pi.nread))

/-- How a critical section ends: the call returns, or sleeps with its loop
counter `i`. -/
inductive Exit where
  | ret (r : Int)
  | sleep (i : Nat)
  deriving DecidableEq, Repr

/-- The loop of `pipewrite`, `k = n - i` turns at most; `killed i` is what
`killed(pr)` returns in turn `i`.  The bytes it stores are returned with the
exit. -/
def pipewriteLoop (killed : Nat → Bool) (copyin : Nat → Option UInt8) (addr : Nat) :
    Nat → Pipe → Nat → Pipe × List UInt8 × Exit
  | 0, pi, i => (pi, [], .ret i)
  | k + 1, pi, i =>
    if pi.readopen = false ∨ killed i = true then (pi, [], .ret (-1))
    else if pi.nwrite = pi.nread + PIPESIZE then (pi, [], .sleep i)
    else
      match copyin (u64 (addr + i)) with
      | none => (pi, [], .ret i)
      | some ch =>
        let (pi', bs, e) := pipewriteLoop killed copyin addr k (pi.put ch) (i + 1)
        (pi', ch :: bs, e)

/-- A critical section of `pipewrite(pi, addr, n)` that starts with counter `i`. -/
def pipewriteSection (killed : Nat → Bool) (copyin : Nat → Option UInt8) (addr : Nat) (n : Int)
    (pi : Pipe) (i : Nat) : Pipe × List UInt8 × Exit :=
  pipewriteLoop killed copyin addr (n - i).toNat pi i

/-- The copying loop of `piperead`, `k` turns at most.  The bytes it takes out
of the buffer are returned with the count; a byte that `copyout` refuses has
been taken as well. -/
def pipereadLoop (copyout : Nat → Bool) (addr : Nat) :
    Nat → Pipe → Nat → Pipe × List UInt8 × Nat
  | 0, pi, i => (pi, [], i)
  | k + 1, pi, i =>
    if pi.nread = pi.nwrite then (pi, [], i)
    else
      let (pi', ch) := pi.get
      if copyout (u64 (addr + i)) then
        let (pi'', bs, r) := pipereadLoop copyout addr k pi' (i + 1)
        (pi'', ch :: bs, r)
      else (pi', [ch], i)

/-- A critical section of `piperead(pi, addr, n)`. -/
def pipereadSection (killed : Bool) (copyout : Nat → Bool) (addr : Nat) (n : Int)
    (pi : Pipe) : Pipe × List UInt8 × Exit :=
  if pi.nread = pi.nwrite ∧ pi.writeopen = true then
    if killed then (pi, [], .ret (-1)) else (pi, [], .sleep 0)
  else
    let (pi', bs, i) := pipereadLoop copyout addr n.toNat pi 0
    (pi', bs, .ret i)

/-- `pipeclose(pi, writable)`, up to the freeing of the page. -/
def pipeclose (pi : Pipe) (writable : Bool) : Pipe :=
  if writable then { pi with writeopen := false } else { pi with readopen := false }

/-! ## §2. Threads. -/

/-- The channels slept on: `&pi->nread` and `&pi->nwrite`. -/
inductive Chan where
  | nread
  | nwrite
  deriving DecidableEq, Repr

/-- A call in progress, with what it keeps while it sleeps. -/
inductive PipeCall where
  | write (addr : Nat) (n : Int) (i : Nat)
  | read (addr : Nat) (n : Int)

/-- A thread as far as the pipe is concerned. -/
structure PipeThread where
  call : Option PipeCall
  /-- the channel it sleeps on -/
  chan : Option Chan
  killed : Bool

/-- A pipe and its users, with the bytes accepted and taken so far. -/
structure PipeSys where
  pi : Pipe
  thread : Nat → PipeThread
  accepted : List UInt8
  taken : List UInt8

/-- `wakeup(chan)` -/
def PipeSys.wakeup (s : PipeSys) (c : Chan) : PipeSys :=
  { s with thread := fun t =>
      if (s.thread t).chan = some c then { s.thread t with chan := none } else s.thread t }

/-- The state of a thread changes. -/
def PipeSys.setThread (s : PipeSys) (t : Nat) (th : PipeThread) : PipeSys :=
  { s with thread := Function.update s.thread t th }

/-- The thread's call returns, or is put to sleep on `c`. -/
def PipeSys.leave (s : PipeSys) (t : Nat) (call : Nat → PipeCall) (c : Chan) : Exit → PipeSys
  | .ret _ => s.setThread t { s.thread t with call := none }
  | .sleep i => s.setThread t { s.thread t with call := some (call i), chan := some c }

/-- One critical section of a writer, which may be killed in the middle of it:
`kill i` is whether it has been by turn `i`.  `wakeup(&pi->nread)` is called on
every way out but the error return. -/
def PipeSys.write (s : PipeSys) (t : Nat) (kill : Nat → Bool) (copyin : Nat → Option UInt8) (addr : Nat) (n : Int)
    (i : Nat) : PipeSys :=
  let (pi', bs, e) := pipewriteSection (fun i => (s.thread t).killed || kill i) copyin addr n s.pi i
  let s' : PipeSys := { s with pi := pi', accepted := s.accepted ++ bs }
  let s' := if e = .ret (-1) then s' else s'.wakeup .nread
  s'.leave t (fun i => .write addr n i) .nwrite e

/-- One critical section of a reader. -/
def PipeSys.read (s : PipeSys) (t : Nat) (copyout : Nat → Bool) (addr : Nat) (n : Int) :
    PipeSys :=
  let (pi', bs, e) := pipereadSection (s.thread t).killed copyout addr n s.pi
  let s' : PipeSys := { s with pi := pi', taken := s.taken ++ bs }
  let s' := match e with
    | .ret r => if r = -1 then s' else s'.wakeup .nwrite
    | .sleep _ => s'
  s'.leave t (fun _ => .read addr n) .nread e

/-- The steps: calls, and the sections after a sleep. -/
inductive PipeStep where
  /-- a thread calls `pipewrite` and runs its first section -/
  | pipewrite (t : Nat) (kill : Nat → Bool) (copyin : Nat → Option UInt8) (addr : Nat) (n : Int)
  /-- a thread calls `piperead` and runs its first section -/
  | piperead (t : Nat) (copyout : Nat → Bool) (addr : Nat) (n : Int)
  /-- a thread that was woken up runs its next section -/
  | resume (t : Nat) (kill : Nat → Bool) (copyin : Nat → Option UInt8) (copyout : Nat → Bool)
  | pipeclose (writable : Bool)
  | kill (t : Nat)

/-- One step of the system; a step that is not enabled is an error. -/
def PipeSys.step (s : PipeSys) : PipeStep → Except Unit PipeSys
  | .pipewrite t kill copyin addr n =>
    match (s.thread t).call with
    | none => .ok (s.write t kill copyin addr n 0)
    | some _ => .error ()
  | .piperead t copyout addr n =>
    match (s.thread t).call with
    | none => .ok (s.read t copyout addr n)
    | some _ => .error ()
  | .resume t kill copyin copyout =>
    if (s.thread t).chan = none then
      match (s.thread t).call with
      | some (.write addr n i) => .ok (s.write t kill copyin addr n i)
      | some (.read addr n) => .ok (s.read t copyout addr n)
      | none => .error ()
    else .error ()
  | .pipeclose writable =>
    .ok (PipeSys.wakeup { s with pi := Xv6.pipeclose s.pi writable } (if writable then .nread else .nwrite))
  | .kill t => .ok (s.setThread t { s.thread t with killed := true, chan := none })

/-- A new pipe, no thread inside it. -/
def PipeSys.init (s : PipeSys) : Prop :=
  (∃ page, s.pi = Pipe.alloc page) ∧ (∀ t, (s.thread t).call = none ∧ (s.thread t).chan = none)
    ∧ s.accepted = [] ∧ s.taken = []

/-- The states any interleaving reaches. -/
def PipeSys.Reachable : PipeSys → Prop :=
  Lib.Reach PipeSys.init (fun _ _ => True) PipeSys.step

/-! ## §3. The buffer. -/

/-- The number of bytes in the buffer, `nwrite - nread` in 32-bit arithmetic. -/
def Pipe.count (pi : Pipe) : Nat := (pi.nwrite - pi.nread).toNat

/-- The bytes in the buffer, oldest first. -/
def Pipe.buffered (pi : Pipe) : List UInt8 :=
  Lib.window pi.data 512 pi.nread.toNat pi.count

/-- **The buffer holds exactly** the bytes accepted and not yet taken. -/
structure Pipe.Holds (pi : Pipe) (accepted taken : List UInt8) : Prop where
  count_le : pi.count ≤ 512
  content : accepted = taken ++ pi.buffered

theorem Pipe.index_eq (n : UInt32) : Pipe.index n = n.toNat % 512 := by
  simp [Pipe.index, PIPESIZE, UInt32.toNat_mod]

variable {pi : Pipe}

/-- Not full: there is room for one more byte. -/
theorem Pipe.count_lt (hle : pi.count ≤ 512) (hne : pi.nwrite ≠ pi.nread + PIPESIZE) : pi.count < 512 := by
  by_contra hge
  have heq : (pi.nwrite - pi.nread).toNat = 512 := by
    unfold Pipe.count at *
    omega
  apply hne
  have hsub : pi.nwrite - pi.nread = PIPESIZE := by
    apply UInt32.toNat_inj.mp
    rw [heq]
    rfl
  rw [← hsub, UInt32.add_comm, UInt32.sub_add_cancel]

/-- Not empty: there is a byte to take. -/
theorem Pipe.count_pos (hne : pi.nread ≠ pi.nwrite) : 0 < pi.count := by
  by_contra hzero
  have heq : (pi.nwrite - pi.nread).toNat = 0 := by
    unfold Pipe.count at *
    omega
  apply hne
  have hsub : pi.nwrite - pi.nread = 0 := by
    apply UInt32.toNat_inj.mp
    rw [heq]
    rfl
  have hadd : pi.nwrite - pi.nread + pi.nread = 0 + pi.nread := by rw [hsub]
  rw [UInt32.sub_add_cancel, UInt32.zero_add] at hadd
  exact hadd.symm

theorem Pipe.count_put (ch : UInt8) (h : pi.count < 512) : (pi.put ch).count = pi.count + 1 := by
  simp only [Pipe.count, Pipe.put, UInt32.toNat_sub, UInt32.toNat_add, UInt32.toNat_one] at *
  omega

theorem Pipe.count_get (h : 0 < pi.count) : pi.get.1.count + 1 = pi.count := by
  have hr := pi.nread.toNat_lt
  simp only [Pipe.count, Pipe.get, UInt32.toNat_sub, UInt32.toNat_add, UInt32.toNat_one] at *
  omega

/-- The write index is the cell after the buffered bytes, wrapped or not. -/
theorem Pipe.index_nwrite (pi : Pipe) : Pipe.index pi.nwrite = (pi.nread.toNat + pi.count) % 512 := by
  have hr := pi.nread.toNat_lt
  simp only [Pipe.index_eq, Pipe.count, UInt32.toNat_sub] at *
  omega

variable {accepted taken : List UInt8}

/-- **A byte stored** into a buffer with room joins the buffered bytes at the end. -/
theorem Pipe.Holds.put (h : pi.Holds accepted taken)
    (hroom : pi.nwrite ≠ pi.nread + PIPESIZE) (ch : UInt8) : (pi.put ch).Holds (accepted ++ [ch]) taken := by
  have hlt := Pipe.count_lt h.count_le hroom
  have hcount := Pipe.count_put ch hlt
  constructor
  · omega
  have hpush : (pi.put ch).buffered = pi.buffered ++ [ch] := by
    rw [Pipe.buffered, hcount]
    show Lib.window (Function.update pi.data (Pipe.index pi.nwrite) ch) 512 pi.nread.toNat
      (pi.count + 1) = _
    rw [Pipe.index_nwrite]
    exact Lib.window_push pi.data ch hlt
  rw [hpush, h.content, List.append_assoc]

/-- **A byte taken** from a non-empty buffer is the oldest one. -/
theorem Pipe.Holds.get (h : pi.Holds accepted taken)
    (hne : pi.nread ≠ pi.nwrite) : pi.get.1.Holds accepted (taken ++ [pi.get.2]) := by
  have hpos := Pipe.count_pos hne
  have hcount := Pipe.count_get hpos
  have hle := h.count_le
  constructor
  · omega
  have hpop : pi.buffered = pi.get.2 :: pi.get.1.buffered := by
    rw [Pipe.buffered, ← hcount, Lib.window_pop, Pipe.buffered]
    have hnext : (pi.nread.toNat + 1) % 512 = pi.get.1.nread.toNat % 512 := by
      simp only [Pipe.get, UInt32.toNat_add, UInt32.toNat_one]
      omega
    rw [← Pipe.index_eq, Lib.window_congr _ _ hnext]
    rfl
  rw [h.content, hpop, List.append_assoc]
  rfl

/-! ## §4. Sections and runs. -/

theorem pipewriteLoop_holds (killed : Nat → Bool) (copyin : Nat → Option UInt8) (addr : Nat) (k : Nat) :
    ∀ (pi : Pipe) (i : Nat) (accepted taken : List UInt8), pi.Holds accepted taken →
      (pipewriteLoop killed copyin addr k pi i).1.Holds
        (accepted ++ (pipewriteLoop killed copyin addr k pi i).2.1) taken := by
  induction k with
  | zero =>
    intro pi i accepted taken h
    simpa [pipewriteLoop] using h
  | succ k ih =>
    intro pi i accepted taken h
    rw [pipewriteLoop]
    split
    · simpa using h
    split
    · simpa using h
    next hroom =>
    cases copyin (u64 (addr + i)) with
    | none => simpa using h
    | some ch =>
      have hput := ih (pi.put ch) (i + 1) _ _ (h.put hroom ch)
      rw [List.append_assoc] at hput
      exact hput

theorem pipereadLoop_holds (copyout : Nat → Bool) (addr : Nat) (k : Nat) :
    ∀ (pi : Pipe) (i : Nat) (accepted taken : List UInt8), pi.Holds accepted taken →
      (pipereadLoop copyout addr k pi i).1.Holds accepted (taken ++ (pipereadLoop copyout addr k pi i).2.1) := by
  induction k with
  | zero =>
    intro pi i accepted taken h
    simpa [pipereadLoop] using h
  | succ k ih =>
    intro pi i accepted taken h
    rw [pipereadLoop]
    split
    · simpa using h
    next hne =>
    have hget := h.get hne
    by_cases hout : copyout (u64 (addr + i)) = true
    · have hrest := ih pi.get.1 (i + 1) _ _ hget
      rw [List.append_assoc] at hrest
      simp only [hout, if_true]
      exact hrest
    · -- the byte that could not be delivered is gone from the buffer too
      simp only [hout]
      exact hget

theorem pipereadSection_holds (killed : Bool) (copyout : Nat → Bool) (addr : Nat) (n : Int)
    (h : pi.Holds accepted taken) : (pipereadSection killed copyout addr n pi).1.Holds accepted
      (taken ++ (pipereadSection killed copyout addr n pi).2.1) := by
  unfold pipereadSection
  split
  · split <;> simpa using h
  · exact pipereadLoop_holds copyout addr n.toNat pi 0 accepted taken h

variable {s : PipeSys}

/-- Waking threads up and suspending one leave the pipe and the histories. -/
theorem PipeSys.leave_holds {t : Nat} {call : Nat → PipeCall} {c : Chan} {e : Exit} (h : s.pi.Holds s.accepted s.taken) :
    (s.leave t call c e).pi.Holds (s.leave t call c e).accepted (s.leave t call c e).taken := by
  cases e <;> exact h

theorem PipeSys.write_holds (h : s.pi.Holds s.accepted s.taken) (t : Nat)
    (kill : Nat → Bool) (copyin : Nat → Option UInt8) (addr : Nat) (n : Int) (i : Nat) :
    (s.write t kill copyin addr n i).pi.Holds (s.write t kill copyin addr n i).accepted
      (s.write t kill copyin addr n i).taken := by
  have hsec := pipewriteLoop_holds (fun i => (s.thread t).killed || kill i) copyin addr (n - i).toNat s.pi i
    s.accepted s.taken h
  apply PipeSys.leave_holds
  split <;> exact hsec

theorem PipeSys.read_holds (h : s.pi.Holds s.accepted s.taken) (t : Nat) (copyout : Nat → Bool) (addr : Nat) (n : Int) :
    (s.read t copyout addr n).pi.Holds (s.read t copyout addr n).accepted (s.read t copyout addr n).taken := by
  have hsec := pipereadSection_holds (s.thread t).killed copyout addr n h
  apply PipeSys.leave_holds
  split
  · split <;> exact hsec
  · exact hsec

theorem PipeSys.step_holds {s' : PipeSys} {a : PipeStep} (h : s.pi.Holds s.accepted s.taken)
    (hstep : s.step a = .ok s') : s'.pi.Holds s'.accepted s'.taken := by
  cases a with
  | pipewrite t kill copyin addr n =>
    simp only [PipeSys.step] at hstep
    split at hstep
    · cases hstep; exact s.write_holds h t kill copyin addr n 0
    · cases hstep
  | piperead t copyout addr n =>
    simp only [PipeSys.step] at hstep
    split at hstep
    · cases hstep; exact s.read_holds h t copyout addr n
    · cases hstep
  | resume t kill copyin copyout =>
    simp only [PipeSys.step] at hstep
    split at hstep
    · split at hstep
      · cases hstep; exact s.write_holds h ..
      · cases hstep; exact s.read_holds h ..
      · cases hstep
    · cases hstep
  | pipeclose writable =>
    cases hstep
    cases writable <;> exact ⟨h.count_le, h.content⟩
  | kill t =>
    cases hstep
    exact h

/-- **Pipes are FIFO and lose nothing in the buffer**, for any number of
threads and any interleaving of their critical sections: at most PIPESIZE
bytes are buffered, and the bytes accepted are the bytes taken followed by
the bytes buffered. -/
theorem pipe_fifo {s : PipeSys} (h : s.Reachable) : (s.pi.nwrite - s.pi.nread).toNat ≤ PIPESIZE.toNat
      ∧ s.accepted = s.taken ++ s.pi.buffered := by
  have hholds : s.pi.Holds s.accepted s.taken := by
    refine Lib.Reach.invariant (I := fun s => s.pi.Holds s.accepted s.taken) ?_ ?_ h
    · rintro s ⟨⟨page, hpi⟩, -, hacc, htaken⟩
      rw [hpi, hacc, htaken]
      have hempty : (Pipe.alloc page).count = 0 := by simp [Pipe.count, Pipe.alloc]
      refine ⟨by rw [hempty]; exact Nat.zero_le _, ?_⟩
      rw [Pipe.buffered, hempty]
      rfl
    · exact fun s a s' hs _ hstep => PipeSys.step_holds hs hstep
  exact ⟨hholds.count_le, hholds.content⟩

/-- A pipe whose users have done nothing yet. -/
def PipeSys.fresh : PipeSys :=
  ⟨Pipe.alloc fun _ => 5, fun _ => ⟨none, none, false⟩, [], []⟩

theorem PipeSys.fresh_reachable : PipeSys.fresh.Reachable := .start ⟨⟨_, rfl⟩, fun _ => ⟨rfl, rfl⟩, rfl, rfl⟩

/-- A writer stores three bytes, a reader takes two of them. -/
def PipeSys.fresh.after : PipeSys :=
  (PipeSys.fresh.write 0 (fun _ => false) (fun a => some (UInt8.ofNat a)) 40 3 0).read 1 (fun _ => true) 0 2

theorem pipe_fifo_example : PipeSys.fresh.after.Reachable ∧ PipeSys.fresh.after.taken = [40, 41]
      ∧ (PipeSys.fresh.after.pi.nwrite - PipeSys.fresh.after.pi.nread).toNat ≤ PIPESIZE.toNat
      ∧ PipeSys.fresh.after.accepted = PipeSys.fresh.after.taken ++ PipeSys.fresh.after.pi.buffered := by
  have hwrite : (PipeSys.fresh.write 0 (fun _ => false) (fun a => some (UInt8.ofNat a)) 40 3 0).Reachable :=
    .next (i := .pipewrite 0 (fun _ => false) (fun a => some (UInt8.ofNat a)) 40 3) PipeSys.fresh_reachable trivial rfl
  have hread : PipeSys.fresh.after.Reachable :=
    .next (i := .piperead 1 (fun _ => true) 0 2) hwrite trivial rfl
  exact ⟨hread, by decide, pipe_fifo hread⟩

/-! ## §5. What a read takes. -/

theorem Pipe.count_zero {pi : Pipe} (h : pi.nread = pi.nwrite) : pi.count = 0 := by
  simp [Pipe.count, h]

/-- **The copying loop counts every byte it takes** exactly if no store of such a byte fails. -/
theorem pipereadLoop_count (copyout : Nat → Bool) (addr k : Nat) : ∀ (pi : Pipe) (i : Nat),
    (pipereadLoop copyout addr k pi i).2.2 = i + (pipereadLoop copyout addr k pi i).2.1.length
      ↔ ∀ j, j < k → j < pi.count → copyout (u64 (addr + (i + j))) = true := by
  induction k with
  | zero => exact fun _ _ => ⟨fun _ j hj => absurd hj (Nat.not_lt_zero j), fun _ => rfl⟩
  | succ k ih =>
    intro pi i
    rw [pipereadLoop]
    split
    · rename_i hempty
      rw [Pipe.count_zero hempty]
      exact ⟨fun _ j _ hj => absurd hj (Nat.not_lt_zero j), fun _ => rfl⟩
    rename_i hne
    have hget := Pipe.count_get (Pipe.count_pos hne)
    by_cases hok : copyout (u64 (addr + i)) = true
    · simp only [hok, if_true, List.length_cons]
      rw [← Nat.add_assoc, Nat.add_right_comm, ih]
      constructor
      · intro hrest j hj hcount
        cases j with
        | zero => exact hok
        | succ j =>
          have hlast := hrest j (by omega) (by omega)
          rw [Nat.add_right_comm, Nat.add_assoc] at hlast
          exact hlast
      · intro hall j hj hcount
        rw [Nat.add_right_comm, Nat.add_assoc]
        exact hall (j + 1) (by omega) (by omega)
    · simp only [hok]
      refine ⟨fun h => absurd h (by simp), fun hall => absurd (hall 0 (by omega) (by omega)) hok⟩

/-- **When a read takes what it reports**: a section of `piperead` sleeps or returns -1 and takes nothing, or it takes the
oldest bytes and returns their number, exactly if no byte that it comes to fails to be stored. -/
theorem read_consumes {pi : Pipe} (h : pi.count ≤ PIPESIZE.toNat) (killed : Bool) (copyout : Nat → Bool) (addr : Nat) (n : Int) :
    (∃ pi' bs e, pipereadSection killed copyout addr n pi = (pi', bs, e) ∧ pi.buffered = bs ++ pi'.buffered
      ∧ ((e = .sleep 0 ∨ e = .ret (-1)) ∧ bs = [] ∨ e = .ret bs.length))
    ↔ ∀ j : Nat, (j : Int) < n → j < pi.count → copyout (u64 (addr + j)) = true := by
  have hholds : pi.Holds pi.buffered [] := ⟨h, rfl⟩
  have hbytes := (pipereadSection_holds killed copyout addr n hholds).content
  rcases hsec : pipereadSection killed copyout addr n pi with ⟨pi', bs, e⟩
  rw [hsec] at hbytes
  unfold pipereadSection at hsec
  split at hsec
  · -- the pipe is empty
    rename_i hempty
    rw [Pipe.count_zero hempty.1]
    refine ⟨fun _ j _ hj => absurd hj (Nat.not_lt_zero j), fun _ => ⟨pi', bs, e, rfl, hbytes, .inl ?_⟩⟩
    split at hsec
    · cases hsec
      exact ⟨.inr rfl, rfl⟩
    · cases hsec
      exact ⟨.inl rfl, rfl⟩
  · have hcount := pipereadLoop_count copyout addr n.toNat pi 0
    simp only [Nat.zero_add, Int.lt_toNat] at hcount
    rw [← hcount]
    cases hsec
    constructor
    · rintro ⟨_, _, _, heq, -, ⟨hexit, -⟩ | hexit⟩
      · cases heq
        rcases hexit with hexit | hexit
        · cases hexit
        · exact absurd (Exit.ret.inj hexit) (by omega)
      · cases heq
        exact Int.ofNat.inj (Exit.ret.inj hexit)
    · exact fun hlen => ⟨_, _, _, rfl, hbytes, .inr (congrArg (fun i : Nat => Exit.ret i) hlen)⟩

/-- A writer has stored one byte. -/
def PipeSys.oneByte : PipeSys := PipeSys.fresh.write 0 (fun _ => false) (fun _ => some 7) 40 1 0

theorem PipeSys.oneByte_reachable : PipeSys.oneByte.Reachable :=
  .next (i := .pipewrite 0 (fun _ => false) (fun _ => some 7) 40 1) PipeSys.fresh_reachable trivial rfl

/-- Only the first address is mapped, and one byte is there to read. -/
theorem read_consumes_oneByte : PipeSys.oneByte.Reachable ∧ PipeSys.oneByte.pi.count ≤ PIPESIZE.toNat
    ∧ ∃ pi' bs e, pipereadSection false (· == 0) 0 4 PipeSys.oneByte.pi = (pi', bs, e)
      ∧ PipeSys.oneByte.pi.buffered = bs ++ pi'.buffered
      ∧ ((e = .sleep 0 ∨ e = .ret (-1)) ∧ bs = [] ∨ e = .ret bs.length) := by
  refine ⟨PipeSys.oneByte_reachable, by decide, (read_consumes (by decide) false (· == 0) 0 4).mpr fun j _ hj => ?_⟩
  have hone : PipeSys.oneByte.pi.count = 1 := by decide
  obtain rfl : j = 0 := by omega
  rfl

/-- **A byte is lost**: the address is not mapped, the read returns 0, and the byte is gone. -/
theorem byte_lost : PipeSys.oneByte.Reachable ∧ PipeSys.oneByte.pi.buffered = [7]
    ∧ (pipereadSection false (fun _ => false) 0 4 PipeSys.oneByte.pi).2.2 = .ret 0
    ∧ (pipereadSection false (fun _ => false) 0 4 PipeSys.oneByte.pi).1.buffered = [] :=
  ⟨PipeSys.oneByte_reachable, by decide, by decide, by decide⟩

end Xv6
