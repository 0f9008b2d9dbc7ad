/-
  Xv6.Dev.Console — console input (`kernel/console.c`).

  The line discipline has three free-running 32-bit indices into one buffer
  of 128 bytes.  `[r, w)` is input that readers may have, `[w, e)` is the
  line being edited.

  The unit of interleaving is a critical section of `cons.lock`: a whole
  `consoleintr`, or `consoleread` from `acquire`, or from the return of
  `sleep`, up to the next `sleep` or the `release`.  Any number of readers
  run theirs in any order, and any of them may be killed.

  Main results:
    * `consoleintr_spec`, `consolereadLoop_spec` — what one section does,
    * `ConsSys.line_discipline` — the indices stay in order, editing keeps to
      the line being edited, and the readers take the committed input in
      order, a ^D ending a read or staying for the next.
-/
import Xv6.Param
import Xv6.Lib.Runs
import Xv6.Lib.Ring

namespace Xv6

/-! ## §1. The buffer and its critical sections. -/

/-- the size of `cons.buf` -/
def INPUT_BUF_SIZE : UInt32 := 128

/-- `cons`, without its lock -/
structure Cons where
  buf : Nat → UInt8
  r : UInt32
  w : UInt32
  e : UInt32

/-- The index of the cell `cons.buf[n % INPUT_BUF_SIZE]`. -/
def Cons.index (n : UInt32) : Nat := (n % INPUT_BUF_SIZE).toNat

/-- The byte of ^D, `C('D')`. -/
def EOT : UInt8 := 4

/-- The byte of a newline. -/
def NL : UInt8 := 10

/-- The number of bytes readers may have, `w - r` in 32-bit arithmetic. -/
def Cons.ready (cons : Cons) : Nat := (cons.w - cons.r).toNat

/-- The number of bytes in the buffer, `e - r` in 32-bit arithmetic. -/
def Cons.used (cons : Cons) : Nat := (cons.e - cons.r).toNat

/-- The length of the line being edited, `e - w` in 32-bit arithmetic. -/
def Cons.editing (cons : Cons) : Nat := (cons.e - cons.w).toNat

/-- The bytes of `[r, w)`. -/
def Cons.pending (cons : Cons) : List UInt8 := Lib.window cons.buf 128 cons.r.toNat cons.ready

/-- The bytes of `[w, e)`. -/
def Cons.line (cons : Cons) : List UInt8 := Lib.window cons.buf 128 cons.w.toNat cons.editing

/-- The loop of ^U: `cons.e != cons.w` stands for `k` turns at most. -/
def killLine : Nat → Cons → Cons
  | 0, cons => cons
  | k + 1, cons =>
    if cons.e ≠ cons.w ∧ cons.buf (Cons.index (cons.e - 1)) ≠ NL then
      killLine k { cons with e := cons.e - 1 }
    else cons

/-- `cons.buf[cons.e++ % INPUT_BUF_SIZE] = c` -/
def Cons.put (cons : Cons) (c : UInt8) : Cons :=
  { cons with
    buf := Function.update cons.buf (Cons.index cons.e) c
    e := cons.e + 1 }

/-- `consoleintr(c)`, `c` being the bits of the `int`.  With the buffer it returns the bytes that
it commits, and whether it calls `wakeup(&cons.r)`. -/
def consoleintr (cons : Cons) (c : UInt32) : Cons × List UInt8 × Bool :=
  if c = 0x10 then (cons, [], false)          -- ^P, `procdump`
  else if c = 0x15 then (killLine cons.editing cons, [], false)
  else if c = 0x08 ∨ c = 0x7f then
    if cons.e ≠ cons.w then ({ cons with e := cons.e - 1 }, [], false) else (cons, [], false)
  else if c ≠ 0 ∧ cons.e - cons.r < INPUT_BUF_SIZE then
    let c := if c = 13 then 10 else c
    let cons := cons.put c.toUInt8
    if c = 10 ∨ c = 4 ∨ cons.e - cons.r = INPUT_BUF_SIZE then
      ({ cons with w := cons.e }, cons.line, true)
    else (cons, [], false)
  else (cons, [], false)

/-- How a section of `consoleread` ends: the call returns, or sleeps with `n` bytes to go. -/
inductive ReadExit where
  | ret (r : Int)
  | sleep (n dst : Nat)
  deriving DecidableEq

/-- The loop of `consoleread` with `n` bytes to go.  The bytes it takes out of the buffer are
returned with the exit; a byte that `either_copyout` refuses has been taken as well. -/
def consolereadLoop (killed : Bool) (copyout : Nat → Bool) (target : Nat) :
    Nat → Cons → Nat → Cons × List UInt8 × ReadExit
  | 0, cons, _ => (cons, [], .ret target)
  | n + 1, cons, dst =>
    if cons.r = cons.w then
      if killed then (cons, [], .ret (-1)) else (cons, [], .sleep (n + 1) dst)
    else
      let c := cons.buf (Cons.index cons.r)
      let cons' := { cons with r := cons.r + 1 }
      if c = EOT then
        if n + 1 < target then ({ cons' with r := cons'.r - 1 }, [], .ret ((target : Int) - (n + 1)))
        else (cons', [c], .ret ((target : Int) - (n + 1)))
      else if copyout dst = false then (cons', [c], .ret ((target : Int) - (n + 1)))
      else if c = NL then (cons', [c], .ret ((target : Int) - n))
      else
        let (cons'', bs, x) := consolereadLoop killed copyout target n cons' (u64 (dst + 1))
        (cons'', c :: bs, x)

/-! ## §2. Readers. -/

/-- A `consoleread` in progress, with the bytes it has taken. -/
structure ReadCall where
  dst : Nat
  n : Nat
  target : Nat
  got : List UInt8

/-- A process as far as `consoleread` is concerned. -/
structure ConsReader where
  call : Option ReadCall
  /-- SLEEPING on `&cons.r` -/
  asleep : Bool
  killed : Bool

/-- The console and its readers, with the input committed, the bytes taken, and for each finished
call the bytes it took and its result. -/
structure ConsSys (ι : Type) where
  cons : Cons
  reader : ι → ConsReader
  committed : List UInt8
  consumed : List UInt8
  finished : List (List UInt8 × Int)

/-- The steps: interrupts and sections of `consoleread`. -/
inductive ConsStep (ι : Type) where
  | consoleintr (c : UInt32)
  /-- a process calls `consoleread` and runs its first section -/
  | consoleread (i : ι) (copyout : Nat → Bool) (dst : Nat) (n : Int)
  /-- a reader that was woken up runs its next section -/
  | resume (i : ι) (copyout : Nat → Bool)
  | kill (i : ι)

namespace ConsSys

variable {ι : Type} [DecidableEq ι]

/-- The state of a reader changes. -/
def setReader (s : ConsSys ι) (i : ι) (x : ConsReader) : ConsSys ι :=
  { s with reader := Function.update s.reader i x }

/-- `wakeup(&cons.r)` -/
def wakeup (s : ConsSys ι) : ConsSys ι :=
  { s with reader := fun i => { s.reader i with asleep := false } }

/-- One section of a reader's call. -/
def read (s : ConsSys ι) (i : ι) (copyout : Nat → Bool) (call : ReadCall) : ConsSys ι :=
  let (cons, bs, x) := consolereadLoop (s.reader i).killed copyout call.target call.n s.cons call.dst
  let s' : ConsSys ι := { s with cons := cons, consumed := s.consumed ++ bs }
  match x with
  | .ret r =>
    ({ s' with finished := s'.finished ++ [(call.got ++ bs, r)] } : ConsSys ι).setReader i
      { s.reader i with call := none }
  | .sleep n dst =>
    s'.setReader i { s.reader i with call := some ⟨dst, n, call.target, call.got ++ bs⟩, asleep := true }

/-- What a step does. -/
def step (s : ConsSys ι) : ConsStep ι → Except Unit (ConsSys ι)
  | .consoleintr c =>
    let (cons, bs, wake) := Xv6.consoleintr s.cons c
    let s' : ConsSys ι := { s with cons := cons, committed := s.committed ++ bs }
    .ok (if wake then s'.wakeup else s')
  | .consoleread i copyout dst n =>
    match (s.reader i).call with
    | none => .ok (s.read i copyout ⟨dst, n.toNat, n.toNat, []⟩)
    | some _ => .error ()
  | .resume i copyout =>
    match (s.reader i).call, (s.reader i).asleep with
    | some call, false => .ok (s.read i copyout call)
    | _, _ => .error ()
  | .kill i => .ok (s.setReader i { s.reader i with killed := true, asleep := false })

/-- After `consoleinit`: the indices are static data, and nobody reads yet. -/
def Init (s : ConsSys ι) : Prop :=
  s.cons.r = 0 ∧ s.cons.w = 0 ∧ s.cons.e = 0 ∧ (∀ i, (s.reader i).call = none)
    ∧ s.committed = [] ∧ s.consumed = [] ∧ s.finished = []

/-- The states any interleaving reaches. -/
def Reachable : ConsSys ι → Prop := Lib.Reach Init (fun _ _ => True) step

/-- What holds in every state. -/
structure Discipline (s : ConsSys ι) : Prop where
  /-- `0 <= w - r <= e - r <= INPUT_BUF_SIZE`, in 32-bit arithmetic -/
  ordered : s.cons.w - s.cons.r ≤ s.cons.e - s.cons.r ∧ s.cons.e - s.cons.r ≤ INPUT_BUF_SIZE
  /-- the input committed is what the readers took and then what they may have -/
  fifo : s.committed = s.consumed ++ s.cons.pending
  /-- a call that took a ^D took nothing else and returned 0 -/
  eof : ∀ bs r, (bs, r) ∈ s.finished → EOT ∈ bs → bs = [EOT] ∧ r = 0
  /-- a call in progress has taken no ^D -/
  reading : ∀ i call, (s.reader i).call = some call → EOT ∉ call.got

/-- The characters of ^U, ^H and delete. -/
def Edits (c : UInt32) : Prop := c = 0x15 ∨ c = 0x08 ∨ c = 0x7f

/-- The reader whose section the step runs. -/
def runs : ConsStep ι → Option ι
  | .consoleread i _ _ _ => some i
  | .resume i _ => some i
  | _ => none

/-- What one step keeps. -/
structure Keeps (s : ConsSys ι) (c : ConsStep ι) (s' : ConsSys ι) : Prop where
  /-- the cells of `[r, w)` are not written -/
  untouched : ∀ k < s.cons.ready,
    s'.cons.buf ((s.cons.r.toNat + k) % 128) = s.cons.buf ((s.cons.r.toNat + k) % 128)
  /-- bytes are committed at the end, and taken at the end -/
  history : ∃ new taken, s'.committed = s.committed ++ new ∧ s'.consumed = s.consumed ++ taken
  /-- editing removes bytes at the end of `[w, e)`, and that is all -/
  edits : ∀ ch, c = .consoleintr ch → Edits ch →
    s'.cons.buf = s.cons.buf ∧ s'.cons.r = s.cons.r ∧ s'.cons.w = s.cons.w ∧ s'.cons.line <+: s.cons.line
  /-- a section that leaves a ^D as the next byte was the last of its read -/
  left : ∀ i, runs c = some i → s'.cons.pending.head? = some EOT → (s'.reader i).call = none

end ConsSys

/-! ## §3. The indices. -/

/-- The indices are in order. -/
def Cons.Ordered (cons : Cons) : Prop := cons.ready ≤ cons.used ∧ cons.used ≤ 128

theorem Cons.index_eq (n : UInt32) : Cons.index n = n.toNat % 128 := by
  simp [Cons.index, INPUT_BUF_SIZE, UInt32.toNat_mod]

namespace Cons

variable {cons : Cons}

theorem ready_add_editing (h : cons.Ordered) : cons.ready + cons.editing = cons.used := by
  have hw := cons.w.toNat_lt
  simp only [Ordered, ready, used, editing, UInt32.toNat_sub] at *
  omega

theorem ready_pos (hne : cons.r ≠ cons.w) : 0 < cons.ready := by
  have hr := cons.r.toNat_lt
  have hw := cons.w.toNat_lt
  have hneq : cons.r.toNat ≠ cons.w.toNat := fun h => hne (UInt32.toNat_inj.mp h)
  simp only [ready, UInt32.toNat_sub]
  omega

theorem editing_pos (hne : cons.e ≠ cons.w) : 0 < cons.editing := by
  have he := cons.e.toNat_lt
  have hw := cons.w.toNat_lt
  have hneq : cons.e.toNat ≠ cons.w.toNat := fun h => hne (UInt32.toNat_inj.mp h)
  simp only [editing, UInt32.toNat_sub]
  omega

theorem pending_of_eq (h : cons.r = cons.w) : cons.pending = [] := by
  unfold pending ready
  rw [h, UInt32.sub_self]
  rfl

/-- **A byte taken** is the first one readers may have. -/
theorem take (h : cons.Ordered) (hne : cons.r ≠ cons.w) :
    ({ cons with r := cons.r + 1 } : Cons).Ordered
      ∧ cons.pending = cons.buf (index cons.r) :: ({ cons with r := cons.r + 1 } : Cons).pending := by
  have hpos := ready_pos hne
  have hready : ({ cons with r := cons.r + 1 } : Cons).ready + 1 = cons.ready := by
    have hr := cons.r.toNat_lt
    simp only [ready, UInt32.toNat_sub, UInt32.toNat_add, UInt32.toNat_one] at *
    omega
  have hused : ({ cons with r := cons.r + 1 } : Cons).used + 1 = cons.used := by
    simp only [Ordered, ready, used, UInt32.toNat_sub, UInt32.toNat_add, UInt32.toNat_one] at *
    omega
  constructor
  · unfold Ordered at *
    omega
  · have hnext : (cons.r.toNat + 1) % 128 = (cons.r + 1).toNat % 128 := by
      simp only [UInt32.toNat_add, UInt32.toNat_one]
      omega
    rw [pending, ← hready, Lib.window_pop, index_eq, Lib.window_congr _ _ hnext]
    rfl

/-- **A byte erased** is the last one of the line. -/
theorem erase (h : cons.Ordered) (hne : cons.e ≠ cons.w) :
    ({ cons with e := cons.e - 1 } : Cons).Ordered
      ∧ ({ cons with e := cons.e - 1 } : Cons).editing + 1 = cons.editing := by
  have hpos := editing_pos hne
  have hsum := ready_add_editing h
  constructor <;>
    simp only [Ordered, ready, used, editing, UInt32.toNat_sub, UInt32.toNat_one] at * <;> omega

/-- A shorter line is a first part of the line. -/
theorem line_le {cons' : Cons} (hbuf : cons'.buf = cons.buf) (hw : cons'.w = cons.w)
    (hle : cons'.editing ≤ cons.editing) : cons'.line <+: cons.line := by
  obtain ⟨l, hl⟩ := Nat.exists_eq_add_of_le hle
  unfold line
  rw [hl, Lib.window_append, hbuf, hw]
  exact List.prefix_append ..

/-- The cell of `e` is not one of `[r, e)`. -/
theorem put_old (hroom : cons.used < 128) (c : UInt8) {k : Nat} (hk : k < cons.used) :
    (cons.put c).buf ((cons.r.toNat + k) % 128) = cons.buf ((cons.r.toNat + k) % 128) := by
  have hcell : index cons.e = (cons.r.toNat + cons.used) % 128 := by
    have hr := cons.r.toNat_lt
    simp only [index_eq, used, UInt32.toNat_sub] at *
    omega
  show Function.update cons.buf (index cons.e) c _ = _
  rw [hcell]
  exact Function.update_of_ne (Lib.mod_ne_of_lt hk hroom) ..

theorem put_indices (h : cons.Ordered) (hroom : cons.used < 128) (c : UInt8) :
    (cons.put c).ready = cons.ready ∧ (cons.put c).used = cons.used + 1 ∧ (cons.put c).Ordered := by
  have hready : (cons.put c).ready = cons.ready := rfl
  have hused : (cons.put c).used = cons.used + 1 := by
    simp only [used, put, UInt32.toNat_sub, UInt32.toNat_add, UInt32.toNat_one] at *
    omega
  refine ⟨hready, hused, ?_⟩
  unfold Ordered at *
  omega

/-- **A byte stored** leaves what readers may have. -/
theorem put_pending (h : cons.Ordered) (hroom : cons.used < 128) (c : UInt8) : (cons.put c).pending = cons.pending := by
  apply List.map_congr_left
  intro k hk
  have hlt : k < cons.ready := List.mem_range.mp hk
  exact put_old hroom c (by have := h.1; omega)

/-- **The line committed** joins what readers may have at the end. -/
theorem commit (h : cons.Ordered) :
    ({ cons with w := cons.e } : Cons).Ordered
      ∧ ({ cons with w := cons.e } : Cons).pending = cons.pending ++ cons.line := by
  have hready : ({ cons with w := cons.e } : Cons).ready = cons.used := rfl
  have hused : ({ cons with w := cons.e } : Cons).used = cons.used := rfl
  constructor
  · exact ⟨by omega, hused ▸ h.2⟩
  have hcell : (cons.r.toNat + cons.ready) % 128 = cons.w.toNat % 128 := by
    have hr := cons.r.toNat_lt
    simp only [ready, UInt32.toNat_sub]
    omega
  rw [pending, hready, ← ready_add_editing h, Lib.window_append, Lib.window_congr _ _ hcell]
  rfl

end Cons

/-! ## §4. What one section does. -/

/-- ^U erases bytes of the line only. -/
theorem killLine_spec (k : Nat) : ∀ cons : Cons, cons.Ordered →
      (killLine k cons).Ordered ∧ (killLine k cons).buf = cons.buf ∧ (killLine k cons).r = cons.r
        ∧ (killLine k cons).w = cons.w ∧ (killLine k cons).editing ≤ cons.editing := by
  induction k with
  | zero =>
    intro cons h
    exact ⟨h, rfl, rfl, rfl, Nat.le_refl _⟩
  | succ k ih =>
    intro cons h
    unfold killLine
    split
    · rename_i hgo
      obtain ⟨hord, hlen⟩ := Cons.erase h hgo.1
      obtain ⟨hord', hbuf, hr, hw, hle⟩ := ih _ hord
      exact ⟨hord', hbuf, hr, hw, by omega⟩
    · exact ⟨h, rfl, rfl, rfl, Nat.le_refl _⟩

/-- `e - w` turns are enough: the loop ends at `w` or behind a newline. -/
theorem killLine_ends (k : Nat) : ∀ cons : Cons, cons.Ordered → cons.editing ≤ k →
      (killLine k cons).e = (killLine k cons).w ∨ (killLine k cons).buf (Cons.index ((killLine k cons).e - 1)) = NL := by
  induction k with
  | zero =>
    intro cons _ hle
    left
    by_contra hne
    have : 0 < cons.editing := Cons.editing_pos hne
    omega
  | succ k ih =>
    intro cons h hle
    unfold killLine
    split
    · rename_i hgo
      obtain ⟨hord, hlen⟩ := Cons.erase h hgo.1
      exact ih _ hord (by omega)
    · rename_i hstop
      by_cases he : cons.e = cons.w
      · exact .inl he
      · exact .inr (not_not.mp fun hne => hstop ⟨he, hne⟩)

/-- **`consoleintr`**: the indices stay in order, what readers may have is not written, and what it
commits joins it at the end. -/
theorem consoleintr_spec (cons : Cons) (c : UInt32) (h : cons.Ordered) : (consoleintr cons c).1.Ordered
      ∧ (consoleintr cons c).1.pending = cons.pending ++ (consoleintr cons c).2.1
      ∧ ∀ k < cons.ready, (consoleintr cons c).1.buf ((cons.r.toNat + k) % 128)
          = cons.buf ((cons.r.toNat + k) % 128) := by
  have hsame : ∀ cons' : Cons, cons'.buf = cons.buf → cons'.r = cons.r → cons'.w = cons.w →
      cons'.pending = cons.pending ++ [] ∧ ∀ k < cons.ready,
        cons'.buf ((cons.r.toNat + k) % 128) = cons.buf ((cons.r.toNat + k) % 128) := by
    intro cons' hbuf hr hw
    refine ⟨?_, fun k _ => by rw [hbuf]⟩
    rw [List.append_nil, Cons.pending, Cons.pending, Cons.ready, Cons.ready, hbuf, hr, hw]
  unfold consoleintr
  split
  · exact ⟨h, hsame cons rfl rfl rfl⟩
  split
  · obtain ⟨hord, hbuf, hr, hw, -⟩ := killLine_spec cons.editing cons h
    exact ⟨hord, hsame _ hbuf hr hw⟩
  split
  · split
    · rename_i hne
      exact ⟨(Cons.erase h hne).1, hsame _ rfl rfl rfl⟩
    · exact ⟨h, hsame cons rfl rfl rfl⟩
  split
  · rename_i hroom
    have hlt : cons.used < 128 := UInt32.lt_iff_toNat_lt.mp hroom.2
    generalize (if c = 13 then (10 : UInt32) else c) = ch
    obtain ⟨-, -, hord⟩ := Cons.put_indices h hlt ch.toUInt8
    have hkeep : ∀ k < cons.ready, (cons.put ch.toUInt8).buf ((cons.r.toNat + k) % 128)
        = cons.buf ((cons.r.toNat + k) % 128) := fun k hk =>
      Cons.put_old hlt ch.toUInt8 (by have := h.1; omega)
    dsimp only
    split
    · obtain ⟨hord', hpend⟩ := Cons.commit hord
      refine ⟨hord', ?_, hkeep⟩
      rw [hpend, Cons.put_pending h hlt]
    · refine ⟨hord, ?_, hkeep⟩
      rw [Cons.put_pending h hlt, List.append_nil]
  · exact ⟨h, hsame cons rfl rfl rfl⟩

/-- **Editing** removes bytes at the end of the line. -/
theorem consoleintr_edits (cons : Cons) (c : UInt32) (h : cons.Ordered) (hc : ConsSys.Edits c) :
    (consoleintr cons c).1.buf = cons.buf ∧ (consoleintr cons c).1.r = cons.r
      ∧ (consoleintr cons c).1.w = cons.w ∧ (consoleintr cons c).1.line <+: cons.line := by
  have hshort : ∀ cons' : Cons, cons'.buf = cons.buf → cons'.r = cons.r → cons'.w = cons.w →
      cons'.editing ≤ cons.editing →
      cons'.buf = cons.buf ∧ cons'.r = cons.r ∧ cons'.w = cons.w ∧ cons'.line <+: cons.line :=
    fun cons' hbuf hr hw hle => ⟨hbuf, hr, hw, Cons.line_le hbuf hw hle⟩
  have hback : c = 0x08 ∨ c = 0x7f → consoleintr cons c =
      if cons.e ≠ cons.w then ({ cons with e := cons.e - 1 }, [], false) else (cons, [], false) := by
    intro hc
    unfold consoleintr
    rw [if_neg, if_neg, if_pos hc]
    · intro h15
      rw [h15] at hc
      exact absurd hc (by decide)
    · intro h10
      rw [h10] at hc
      exact absurd hc (by decide)
  rcases hc with rfl | hc
  · obtain ⟨-, hbuf, hr, hw, hle⟩ := killLine_spec cons.editing cons h
    exact hshort _ hbuf hr hw hle
  · rw [hback hc]
    split
    · rename_i hne
      exact hshort _ rfl rfl rfl (Nat.le_of_succ_le (Cons.erase h hne).2.le)
    · exact hshort _ rfl rfl rfl (Nat.le_refl _)

/-- What a section of `consoleread` with `n` bytes to go has done. -/
structure ReadSection (cons : Cons) (target n : Nat) (out : Cons × List UInt8 × ReadExit) : Prop where
  ordered : out.1.Ordered
  buf : out.1.buf = cons.buf
  /-- the bytes taken are the first ones readers may have -/
  fifo : cons.pending = out.2.1 ++ out.1.pending
  /-- a ^D is taken alone, by a call that has taken nothing -/
  eof : EOT ∈ out.2.1 → out.2.1 = [EOT] ∧ n = target ∧ out.2.2 = .ret 0
  /-- a section sleeps only when there is nothing left -/
  sleep : ∀ m dst, out.2.2 = .sleep m dst → out.1.pending = [] ∧ m + out.2.1.length = n

theorem consolereadLoop_spec (killed : Bool) (copyout : Nat → Bool) (target n : Nat) :
    ∀ (cons : Cons) (dst : Nat), cons.Ordered → n ≤ target →
      ReadSection cons target n (consolereadLoop killed copyout target n cons dst) := by
  induction n with
  | zero =>
    intro cons dst h _
    exact ⟨h, rfl, rfl, fun hmem => absurd hmem List.not_mem_nil, nofun⟩
  | succ n ih =>
    intro cons dst h hle
    unfold consolereadLoop
    by_cases hempty : cons.r = cons.w
    · rw [if_pos hempty]
      split
      · exact ⟨h, rfl, rfl, fun hmem => absurd hmem List.not_mem_nil, nofun⟩
      · refine ⟨h, rfl, rfl, fun hmem => absurd hmem List.not_mem_nil, fun m d hx => ?_⟩
        obtain ⟨rfl, -⟩ := ReadExit.sleep.inj hx
        exact ⟨Cons.pending_of_eq hempty, rfl⟩
    rw [if_neg hempty]
    obtain ⟨hord, hpend⟩ := Cons.take h hempty
    have hone : EOT ∈ [cons.buf (Cons.index cons.r)] → cons.buf (Cons.index cons.r) = EOT := fun hmem =>
      (List.mem_singleton.mp hmem).symm
    by_cases heof : cons.buf (Cons.index cons.r) = EOT
    · rw [if_pos heof]
      split
      · -- the ^D is put back
        have hback : ({ cons with r := cons.r + 1 - 1 } : Cons) = cons := by
          rw [UInt32.add_sub_cancel]
        rw [hback]
        exact ⟨h, rfl, rfl, fun hmem => absurd hmem List.not_mem_nil, nofun⟩
      rename_i hfull
      have hn : n + 1 = target := by omega
      refine ⟨hord, rfl, hpend, fun _ => ⟨by rw [heof], hn, ?_⟩, nofun⟩
      show ReadExit.ret ((target : Int) - (n + 1)) = .ret 0
      congr 1
      omega
    rw [if_neg heof]
    split
    · exact ⟨hord, rfl, hpend, fun hmem => absurd (hone hmem) heof, nofun⟩
    split
    · exact ⟨hord, rfl, hpend, fun hmem => absurd (hone hmem) heof, nofun⟩
    have hrest := ih _ (u64 (dst + 1)) hord (by omega)
    refine ⟨hrest.ordered, hrest.buf, ?_, fun hmem => ?_, fun m d hx => ?_⟩
    · rw [hpend, hrest.fifo]
      rfl
    · rcases List.mem_cons.mp hmem with hc | hmem
      · exact absurd hc.symm heof
      · -- a later ^D is not taken, the call having taken this byte
        have := (hrest.eof hmem).2.1
        omega
    · obtain ⟨hnil, hlen⟩ := hrest.sleep m d hx
      exact ⟨hnil, congrArg (· + 1) hlen⟩

/-! ## §5. Runs. -/

namespace ConsSys

variable {ι : Type} [DecidableEq ι] {s s' : ConsSys ι} {i j : ι}

/-- What holds in every state, with what a call in progress has left to do. -/
structure Inv (s : ConsSys ι) : Prop where
  ordered : s.cons.Ordered
  fifo : s.committed = s.consumed ++ s.cons.pending
  eof : ∀ bs r, (bs, r) ∈ s.finished → EOT ∈ bs → bs = [EOT] ∧ r = 0
  reading : ∀ i call, (s.reader i).call = some call → EOT ∉ call.got ∧ call.n + call.got.length = call.target

omit [DecidableEq ι] in
theorem Inv.discipline (h : s.Inv) : s.Discipline :=
  ⟨⟨UInt32.le_iff_toNat_le.mpr h.ordered.1, UInt32.le_iff_toNat_le.mpr h.ordered.2⟩, h.fifo, h.eof,
    fun i call hcall => (h.reading i call hcall).1⟩

theorem reader_setReader (s : ConsSys ι) (i j : ι) (x : ConsReader) :
    (s.setReader i x).reader j = if j = i then x else s.reader j := by
  show Function.update s.reader i x j = _
  by_cases hj : j = i
  · rw [hj, Function.update_self, if_pos rfl]
  · rw [Function.update_of_ne hj, if_neg hj]

/-- **One section of a reader.** -/
theorem Inv.read (h : s.Inv) (copyout : Nat → Bool) (call : ReadCall) (hgot : EOT ∉ call.got)
    (hlen : call.n + call.got.length = call.target) :
    (s.read i copyout call).Inv ∧ (s.read i copyout call).cons.buf = s.cons.buf
      ∧ (s.read i copyout call).committed = s.committed
      ∧ (∃ taken, (s.read i copyout call).consumed = s.consumed ++ taken)
      ∧ ((s.read i copyout call).cons.pending.head? = some EOT → ((s.read i copyout call).reader i).call = none) := by
  have hsec := consolereadLoop_spec (s.reader i).killed copyout call.target call.n s.cons call.dst h.ordered
    (by omega)
  unfold ConsSys.read
  generalize consolereadLoop (s.reader i).killed copyout call.target call.n s.cons call.dst = out at hsec
  obtain ⟨cons, bs, x⟩ := out
  have hfifo : s.committed = s.consumed ++ bs ++ cons.pending := by
    rw [h.fifo, hsec.fifo, List.append_assoc]
  cases x with
  | ret r =>
    refine ⟨⟨hsec.ordered, hfifo, fun bs' r' hmem heot => ?_, fun j c hc => ?_⟩, hsec.buf, rfl, ⟨bs, rfl⟩, fun _ => ?_⟩
    · rcases List.mem_append.mp hmem with hold | hnew
      · exact h.eof bs' r' hold heot
      -- the call took the ^D in this section, so it had taken nothing before
      obtain ⟨rfl, rfl⟩ := Prod.mk.inj (List.mem_singleton.mp hnew)
      have hbs : EOT ∈ bs := (List.mem_append.mp heot).resolve_left hgot
      obtain ⟨honly, hn, hret⟩ := hsec.eof hbs
      have hnil : call.got = [] := List.length_eq_zero_iff.mp (by omega)
      have honly : bs = [EOT] := honly
      exact ⟨by rw [hnil, honly]; rfl, ReadExit.ret.inj hret⟩
    · rw [reader_setReader] at hc
      split at hc
      · cases hc
      · exact h.reading j c hc
    · show ((ConsSys.setReader _ i _).reader i).call = none
      rw [reader_setReader, if_pos rfl]
  | sleep n dst =>
    obtain ⟨hnil, hleft⟩ := hsec.sleep n dst rfl
    have hno : EOT ∉ bs := fun hmem => nomatch (hsec.eof hmem).2.2
    refine ⟨⟨hsec.ordered, hfifo, h.eof, fun j c hc => ?_⟩, hsec.buf, rfl, ⟨bs, rfl⟩, fun hhead => ?_⟩
    · rw [reader_setReader] at hc
      split at hc
      · cases hc
        refine ⟨fun hmem => (List.mem_append.mp hmem).elim hgot hno, ?_⟩
        show n + (call.got ++ bs).length = call.target
        rw [List.length_append]
        have hleft : n + bs.length = call.n := hleft
        omega
      · exact h.reading j c hc
    · have hhead : cons.pending.head? = some EOT := hhead
      rw [hnil] at hhead
      cases hhead

omit [DecidableEq ι] in
/-- Only the readers' flags change. -/
theorem Inv.reader (h : s.Inv) (hcall : ∀ j, (s'.reader j).call = (s.reader j).call) (hcons : s'.cons = s.cons)
    (hcom : s'.committed = s.committed) (htaken : s'.consumed = s.consumed) (hfin : s'.finished = s.finished) : s'.Inv :=
  ⟨hcons ▸ h.ordered, by rw [hcom, htaken, hcons]; exact h.fifo, hfin ▸ h.eof,
    fun j call hj => h.reading j call (hcall j ▸ hj)⟩

/-- **One step.** -/
theorem Inv.step {c : ConsStep ι} (h : s.Inv) (hrun : s.step c = .ok s') : s'.Inv ∧ s.Keeps c s' := by
  cases c with
  | consoleintr ch =>
    obtain ⟨hord, hpend, hkeep⟩ := consoleintr_spec s.cons ch h.ordered
    have hedit := fun hc => consoleintr_edits s.cons ch h.ordered hc
    dsimp only [ConsSys.step] at hrun
    generalize Xv6.consoleintr s.cons ch = out at hord hpend hkeep hedit hrun
    obtain ⟨cons, bs, wake⟩ := out
    have hinv : ConsSys.Inv (⟨cons, s.reader, s.committed ++ bs, s.consumed, s.finished⟩ : ConsSys ι) := by
      refine ⟨hord, ?_, h.eof, h.reading⟩
      show s.committed ++ bs = s.consumed ++ cons.pending
      rw [hpend, h.fifo, List.append_assoc]
    -- `wakeup` changes neither the buffer nor the calls
    cases wake with
    | true =>
      cases hrun
      exact ⟨hinv.reader (fun _ => rfl) rfl rfl rfl rfl, hkeep, ⟨bs, [], rfl, (List.append_nil _).symm⟩,
        fun c hc hed => hedit (ConsStep.consoleintr.inj hc ▸ hed), nofun⟩
    | false =>
      cases hrun
      exact ⟨hinv, hkeep, ⟨bs, [], rfl, (List.append_nil _).symm⟩,
        fun c hc hed => hedit (ConsStep.consoleintr.inj hc ▸ hed), nofun⟩
  | consoleread j copyout dst n =>
    dsimp only [ConsSys.step] at hrun
    split at hrun
    · cases hrun
      obtain ⟨hinv, hbuf, hcom, ⟨taken, htaken⟩, hleft⟩ := h.read (i := j) copyout ⟨dst, n.toNat, n.toNat, []⟩
        List.not_mem_nil rfl
      exact ⟨hinv, fun k _ => by rw [hbuf], ⟨[], taken, by rw [hcom, List.append_nil], htaken⟩, nofun,
        fun i hi => Option.some.inj hi ▸ hleft⟩
    · cases hrun
  | resume j copyout =>
    dsimp only [ConsSys.step] at hrun
    split at hrun
    · rename_i call hcall _
      cases hrun
      obtain ⟨hgot, hlen⟩ := h.reading j call hcall
      obtain ⟨hinv, hbuf, hcom, ⟨taken, htaken⟩, hleft⟩ := h.read (i := j) copyout call hgot hlen
      exact ⟨hinv, fun k _ => by rw [hbuf], ⟨[], taken, by rw [hcom, List.append_nil], htaken⟩, nofun,
        fun i hi => Option.some.inj hi ▸ hleft⟩
    · cases hrun
  | kill j =>
    cases hrun
    refine ⟨h.reader (fun k => ?_) rfl rfl rfl rfl, fun _ _ => rfl,
      ⟨[], [], (List.append_nil _).symm, (List.append_nil _).symm⟩, nofun, nofun⟩
    rw [reader_setReader]
    split
    · rename_i hk
      rw [hk]
    · rfl

omit [DecidableEq ι] in
theorem Init.inv (h : s.Init) : s.Inv := by
  obtain ⟨hr, hw, he, hcall, hcom, htaken, hfin⟩ := h
  refine ⟨?_, ?_, fun bs r hmem => ?_, fun i call hc => ?_⟩
  · unfold Cons.Ordered Cons.ready Cons.used
    rw [hr, hw, he]
    decide
  · rw [hcom, htaken, Cons.pending_of_eq (hr.trans hw.symm)]
    rfl
  · rw [hfin] at hmem
    exact absurd hmem List.not_mem_nil
  · rw [hcall] at hc
    cases hc

/-- **The line discipline**, in every interleaving and however long the run. -/
theorem line_discipline (h : s.Reachable) : s.Discipline ∧ ∀ c s', s.step c = .ok s' → s.Keeps c s' := by
  have hinv : s.Inv := h.invariant (fun s hs => hs.inv) fun s c s' hs _ hrun => (hs.step hrun).1
  exact ⟨hinv.discipline, fun c s' hrun => (hinv.step hrun).2⟩

/-- Two readers wait; "ab", backspace, "c", return and ^D are typed.  The first takes "ac" and the newline, the second
the ^D. -/
theorem line_discipline_typed : ∃ s : ConsSys Bool, s.Reachable
      ∧ (s.committed = [97, 99, NL, EOT] ∧ s.consumed = [97, 99, NL, EOT]
        ∧ s.finished = [([97, 99, NL], 3), ([EOT], 0)]) ∧ s.Discipline := by
  have hinit : Init (⟨⟨fun _ => 0, 0, 0, 0⟩, fun _ => ⟨none, false, false⟩, [], [], []⟩ : ConsSys Bool) :=
    ⟨rfl, rfl, rfl, fun _ => rfl, rfl, rfl, rfl⟩
  obtain ⟨s, hs, hend⟩ : ∃ s : ConsSys Bool, s.Reachable ∧ decide (s.committed = [97, 99, NL, EOT]
      ∧ s.consumed = [97, 99, NL, EOT] ∧ s.finished = [([97, 99, NL], 3), ([EOT], 0)]) = true :=
    Lib.Reach.of_reaches
      [.consoleread true (fun _ => true) 0 10, .consoleread false (fun _ => true) 0 10, .consoleintr 97,
        .consoleintr 98, .consoleintr 0x08, .consoleintr 99, .consoleintr 13, .consoleintr 4,
        .resume true (fun _ => true), .resume false (fun _ => true)]
      _ hinit (by decide +kernel)
  exact ⟨s, hs, decide_eq_true_eq.mp hend, (line_discipline hs).1⟩

end ConsSys

end Xv6
