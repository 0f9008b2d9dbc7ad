/-
  Xv6.Fs.Log — transactions of the file system log (`begin_op`, `log_write`,
  `end_op`, `commit` of `kernel/log.c`).

  The unit of interleaving is a critical section of `log.lock`; `commit` runs
  without the lock, one block at a time.  A process that has to wait in
  `begin_op` sleeps until a `wakeup(&log)` and then looks again.

  The history records each `log_write` with the operation that made it and
  the number of the transaction that was open at that moment; `txns` are the
  transactions that reached the disk, with their contents.

  Main results:
    * `log_grouping`   — all writes of an operation are in one transaction,
      and a transaction holds the last contents written in it,
    * `log_admission`  — with at most MAXOPBLOCKS - 1 blocks per operation no
      transaction gets too big; `admission_boundary` is a run in which
      three operations of MAXOPBLOCKS blocks do not fit,
    * `no_stranded_operation` — nobody waits for the log in vain.
-/
import Xv6.Fs.Bio

namespace Xv6

/-! ## §1. The code of `log.c` under `log.lock`. -/

/-- blocks in the log -/
def LOGSIZE : Nat := MAXOPBLOCKS * 3

/-- `struct log`; `block` is `lh.block[0 .. lh.n)`. -/
structure Log where
  start : Nat
  size : Nat
  outstanding : Nat
  committing : Bool
  block : List Nat
  deriving DecidableEq, Repr

namespace Log

/-- One look of `begin_op()` at the log; `none` is a process that sleeps. -/
def begin_op (log : Log) : Option Log :=
  if log.committing then none
  else if log.block.length + (log.outstanding + 1) * MAXOPBLOCKS > LOGSIZE then none
  else some { log with outstanding := log.outstanding + 1 }

/-- The first critical section of `end_op()`, with `do_commit`. -/
def end_op (log : Log) : FsResult (Log × Bool) :=
  let log := { log with outstanding := log.outstanding - 1 }
  if log.committing then .error (.panic "log.committing")
  else if log.outstanding = 0 then .ok ({ log with committing := true }, true)
  else .ok (log, false)

/-- `log_write(b)`; the flag says that `b` is new to the log and pinned. -/
def log_write (log : Log) (blockno : Nat) : FsResult (Log × Bool) :=
  if log.block.length ≥ LOGSIZE ∨ (log.block.length : Int) ≥ (log.size : Int) - 1 then
    .error (.panic "too big a transaction")
  else if log.outstanding < 1 then .error (.panic "log_write outside of trans")
  else if blockno ∈ log.block then .ok (log, false)
  else .ok ({ log with block := log.block ++ [blockno] }, true)

end Log

/-! ## §2. Processes. -/

variable {Block : Type}

/-- Where a process is in `commit()`. -/
inductive CommitPc (Block : Type) where
  /-- in `write_log`, with the log blocks it has written -/
  | writeLog (done : List Block)
  /-- the header is on disk -/
  | install
  /-- `commit()` has returned -/
  | cleared

/-- Where a process is in an operation. -/
inductive OpState (Block : Type) where
  | idle
  /-- in `begin_op`, on channel `&log` -/
  | sleeping
  | woken
  /-- between `begin_op` and `end_op` -/
  | inOp (op : Nat)
  | commit (pc : CommitPc Block)

/-- The operation a process is in. -/
def OpState.op? : OpState Block → Option Nat
  | .inOp op => some op
  | _ => none

/-- Where it is in `commit()`. -/
def OpState.pc? : OpState Block → Option (CommitPc Block)
  | .commit pc => some pc
  | _ => none

/-- One `log_write`: who made it, in which transaction, and what it wrote. -/
structure LogEvent (Block : Type) where
  op : Nat
  txn : Nat
  blockno : Nat
  data : Block

/-- The log with its users.  `cache` is the contents of the home blocks as
the buffer cache has them. -/
structure LogSys (Block : Type) where
  log : Log
  cache : Nat → Block
  proc : Pid → OpState Block
  nextOp : Nat
  events : List (LogEvent Block)
  txns : List (List (Nat × Block))

/-- The steps of operations and commits. -/
inductive LogStep (Block : Type) where
  | begin_op (pid : Pid)
  /-- the holder of the buffer has changed it to `data` -/
  | log_write (pid : Pid) (blockno : Nat) (data : Block)
  | end_op (pid : Pid)
  | writeLog (pid : Pid)
  | writeHead (pid : Pid)
  | clear (pid : Pid)
  | finish (pid : Pid)

namespace LogSys

/-- The state of a process changes. -/
def setProc (s : LogSys Block) (pid : Pid) (x : OpState Block) : LogSys Block :=
  { s with proc := Function.update s.proc pid x }

/-- `wakeup(&log)` -/
def wakeup (s : LogSys Block) : LogSys Block :=
  { s with proc := fun pid =>
      match s.proc pid with
      | .sleeping => .woken
      | x => x }

/-- The process starts an operation. -/
def enroll (s : LogSys Block) (pid : Pid) (log : Log) : LogSys Block :=
  { s.setProc pid (.inOp s.nextOp) with log := log, nextOp := s.nextOp + 1 }

/-- `begin_op` looks at the log. -/
def look (s : LogSys Block) (pid : Pid) : LogSys Block :=
  match s.log.begin_op with
  | none => s.setProc pid .sleeping
  | some log => s.enroll pid log

/-- The contents and the history after a `log_write`. -/
def record (s : LogSys Block) (log : Log) (op blockno : Nat) (data : Block) : LogSys Block :=
  { s with
    log := log
    cache := Function.update s.cache blockno data
    events := s.events ++ [⟨op, s.txns.length, blockno, data⟩] }

/-- The process goes on to `x`, with the log changed. -/
def moveOn (s : LogSys Block) (pid : Pid) (x : OpState Block) (log : Log) : LogSys Block :=
  { s.setProc pid x with log := log }

/-- `commit()` has something to do only if `lh.n > 0`. -/
def enterCommit (log : Log) : CommitPc Block :=
  if log.block.length > 0 then .writeLog [] else .cleared

/-- What a step does. -/
def step (s : LogSys Block) : LogStep Block → FsResult (LogSys Block)
  | .begin_op pid =>
    match s.proc pid with
    | .idle => .ok (s.look pid)
    | .woken => .ok (s.look pid)
    | _ => .error .disabled
  | .log_write pid blockno data =>
    match s.proc pid with
    | .inOp op => do
        let (log, _) ← s.log.log_write blockno
        .ok (s.record log op blockno data)
    | _ => .error .disabled
  | .end_op pid =>
    match s.proc pid with
    | .inOp _ => do
        let (log, do_commit) ← s.log.end_op
        if do_commit then .ok (s.moveOn pid (.commit (enterCommit log)) log)
        else .ok (s.moveOn pid .idle log).wakeup
    | _ => .error .disabled
  | .writeLog pid =>
    match s.proc pid with
    | .commit (.writeLog done) =>
      match s.log.block[done.length]? with
      | some blockno => .ok (s.setProc pid (.commit (.writeLog (done ++ [s.cache blockno]))))
      | none => .error .disabled
    | _ => .error .disabled
  | .writeHead pid =>
    match s.proc pid with
    | .commit (.writeLog done) =>
      if done.length = s.log.block.length then
        .ok { s.setProc pid (.commit .install) with txns := s.txns ++ [s.log.block.zip done] }
      else .error .disabled
    | _ => .error .disabled
  | .clear pid =>
    match s.proc pid with
    | .commit .install =>
      .ok (s.moveOn pid (.commit .cleared) { s.log with block := [] })
    | _ => .error .disabled
  | .finish pid =>
    match s.proc pid with
    | .commit .cleared =>
      .ok (s.moveOn pid .idle { s.log with committing := false }).wakeup
    | _ => .error .disabled

/-- After `initlog`: the log is empty and nobody uses it. -/
def Start (size : Nat) (s : LogSys Block) : Prop :=
  ∃ start cache, s = ⟨⟨start, size, 0, false, []⟩, cache, fun _ => .idle, 0, [], []⟩

/-! ## §3. The invariant. -/

/-- What transaction `txn` last wrote to a block. -/
def lastWrite (events : List (LogEvent Block)) (txn blockno : Nat) : Option Block :=
  (events.reverse.find? fun e => e.txn = txn ∧ e.blockno = blockno).map LogEvent.data

theorem lastWrite_append (events : List (LogEvent Block)) (e : LogEvent Block) (txn blockno : Nat) :
    lastWrite (events ++ [e]) txn blockno
      = if e.txn = txn ∧ e.blockno = blockno then some e.data else lastWrite events txn blockno := by
  unfold lastWrite
  rw [List.reverse_append, List.reverse_singleton, List.singleton_append, List.find?_cons]
  by_cases h : e.txn = txn ∧ e.blockno = blockno
  · rw [decide_eq_true h, if_pos h]
    rfl
  · rw [decide_eq_false h, if_neg h]

theorem lastWrite_none {events : List (LogEvent Block)} {txn : Nat} (blockno : Nat)
    (h : ∀ e ∈ events, e.txn ≠ txn) : lastWrite events txn blockno = none := by
  unfold lastWrite
  rw [Option.map_eq_none_iff, List.find?_eq_none]
  intro e he hc
  rw [decide_eq_true_eq] at hc
  exact h e (List.mem_reverse.mp he) hc.1

/-- The count of operations is right and the log has room for them. -/
structure Inv (s : LogSys Block) (F : Finset Pid) : Prop where
  /-- `F` are the processes inside an operation -/
  mem : ∀ pid, pid ∈ F ↔ (s.proc pid).op?.isSome
  card : s.log.outstanding = F.card
  commit : s.log.committing = true → s.log.outstanding = 0
  /-- at most one process commits -/
  alone : ∀ pid, (s.proc pid).pc?.isSome →
    s.log.committing = true ∧ ∀ pid', (s.proc pid').pc?.isSome → pid' = pid
  fresh : ∀ pid op, (s.proc pid).op? = some op → op < s.nextOp
  known : ∀ e ∈ s.events, e.op < s.nextOp ∧ e.txn ≤ s.txns.length
  /-- an open operation has written in the open transaction only -/
  opened : ∀ pid op, (s.proc pid).op? = some op → ∀ e ∈ s.events, e.op = op →
    e.txn = s.txns.length
  once : ∀ e ∈ s.events, ∀ e' ∈ s.events, e.op = e'.op → e.txn = e'.txn
  nodup : s.log.block.Nodup
  /-- the log in memory is the open transaction, until the header is written -/
  logged : (∀ pid, (s.proc pid).pc? ≠ some .install) → ∀ blockno,
    lastWrite s.events s.txns.length blockno
      = if blockno ∈ s.log.block then some (s.cache blockno) else none
  installed : ∀ pid, (s.proc pid).pc? = some .install → ∀ e ∈ s.events, e.txn ≠ s.txns.length
  copied : ∀ pid done, (s.proc pid).pc? = some (.writeLog done) →
    done.length ≤ s.log.block.length ∧ done = (s.log.block.take done.length).map s.cache
  cleared : ∀ pid, (s.proc pid).pc? = some .cleared → s.log.block = []
  quiet : s.log.outstanding = 0 → s.log.committing = false → s.log.block = []
  committed : ∀ txn contents, s.txns[txn]? = some contents → ∀ blockno,
    contents.lookup blockno = lastWrite s.events txn blockno

variable {s s' : LogSys Block} {F : Finset Pid} {pid : Pid}

@[simp] theorem setProc_same (s : LogSys Block) (pid : Pid) (x : OpState Block) : (s.setProc pid x).proc pid = x := Function.update_self ..

theorem setProc_ne (s : LogSys Block) (x : OpState Block) {pid pid' : Pid} (h : pid' ≠ pid) :
    (s.setProc pid x).proc pid' = s.proc pid' := Function.update_of_ne h ..

theorem enroll_proc (s : LogSys Block) (pid : Pid) (log : Log) :
    (s.enroll pid log).proc = (s.setProc pid (.inOp s.nextOp)).proc := rfl

theorem record_events (s : LogSys Block) (log : Log) (op blockno : Nat) (data : Block) :
    (s.record log op blockno data).events = s.events ++ [⟨op, s.txns.length, blockno, data⟩] := rfl

theorem wakeup_op (s : LogSys Block) (pid : Pid) : (s.wakeup.proc pid).op? = (s.proc pid).op? := by
  unfold wakeup
  dsimp only
  split
  · next h => rw [h]; rfl
  · rfl

theorem wakeup_pc (s : LogSys Block) (pid : Pid) : (s.wakeup.proc pid).pc? = (s.proc pid).pc? := by
  unfold wakeup
  dsimp only
  split
  · next h => rw [h]; rfl
  · rfl

variable (h : s.Inv F)
include h

/-- The invariant reads processes only through `op?` and `pc?`. -/
theorem Inv.congr (hlog : s'.log = s.log) (hcache : s'.cache = s.cache)
    (hnext : s'.nextOp = s.nextOp) (hev : s'.events = s.events) (htx : s'.txns = s.txns)
    (hop : ∀ pid, (s'.proc pid).op? = (s.proc pid).op?)
    (hpc : ∀ pid, (s'.proc pid).pc? = (s.proc pid).pc?) : s'.Inv F where
  mem := fun pid => by rw [hop]; exact h.mem pid
  card := by rw [hlog]; exact h.card
  commit := by rw [hlog]; exact h.commit
  alone := fun pid => by
    rw [hpc, hlog]
    exact fun hp => ⟨(h.alone pid hp).1, fun pid' hp' => (h.alone pid hp).2 pid' (hpc pid' ▸ hp')⟩
  fresh := fun pid op => by rw [hop, hnext]; exact h.fresh pid op
  known := by rw [hev, hnext, htx]; exact h.known
  opened := fun pid op => by rw [hop, hev, htx]; exact h.opened pid op
  once := by rw [hev]; exact h.once
  nodup := by rw [hlog]; exact h.nodup
  logged := fun hno => by
    rw [hev, htx, hlog, hcache]
    exact h.logged fun pid => hpc pid ▸ hno pid
  installed := fun pid => by rw [hpc, hev, htx]; exact h.installed pid
  copied := fun pid done => by rw [hpc, hlog, hcache]; exact h.copied pid done
  cleared := fun pid => by rw [hpc, hlog]; exact h.cleared pid
  quiet := by rw [hlog]; exact h.quiet
  committed := by rw [htx, hev]; exact h.committed

theorem Inv.wakeup : s.wakeup.Inv F :=
  h.congr rfl rfl rfl rfl rfl (wakeup_op s) (wakeup_pc s)

variable {op : Nat}

/-- A process inside an operation is counted, and nobody commits. -/
theorem Inv.in_op (hp : (s.proc pid).op? = some op) :
    pid ∈ F ∧ 1 ≤ s.log.outstanding ∧ s.log.committing = false ∧ ∀ pid', (s.proc pid').pc? = none := by
  have hF : pid ∈ F := (h.mem pid).mpr (by rw [hp]; rfl)
  have hpos : 1 ≤ s.log.outstanding := by
    rw [h.card]
    exact Finset.card_pos.mpr ⟨pid, hF⟩
  have hno : s.log.committing = false := by
    cases hc : s.log.committing with
    | false => rfl
    | true => have := h.commit hc; omega
  refine ⟨hF, hpos, hno, fun pid' => ?_⟩
  cases hpc : (s.proc pid').pc? with
  | none => rfl
  | some pc =>
    have := (h.alone pid' (by rw [hpc]; rfl)).1
    rw [hno] at this
    cases this

/-! ## §4. Operations. -/

/-- **begin_op** admits a new operation to the open transaction. -/
theorem Inv.enroll (hop : (s.proc pid).op? = none) (hpc : (s.proc pid).pc? = none)
    (hno : s.log.committing = false) :
    Inv (s.enroll pid { s.log with outstanding := s.log.outstanding + 1 }) (insert pid F) := by
  have hnot : pid ∉ F := by
    rw [h.mem, hop]
    exact Bool.false_ne_true
  have hpcs : ∀ pid', ((s.enroll pid { s.log with outstanding := s.log.outstanding + 1 }).proc
      pid').pc? = (s.proc pid').pc? := by
    intro pid'
    rw [enroll_proc]
    by_cases hp : pid' = pid
    · rw [hp, setProc_same, hpc]; rfl
    · rw [setProc_ne s _ hp]
  have hops : ∀ pid' op, ((s.enroll pid { s.log with outstanding := s.log.outstanding + 1 }).proc
      pid').op? = some op → op = s.nextOp ∨ (s.proc pid').op? = some op := by
    intro pid' op
    rw [enroll_proc]
    by_cases hp : pid' = pid
    · rw [hp, setProc_same]
      exact fun he => .inl (Option.some.inj he).symm
    · rw [setProc_ne s _ hp]
      exact fun he => .inr he
  exact {
    mem := fun pid' => by
      rw [enroll_proc, Finset.mem_insert]
      by_cases hp : pid' = pid
      · rw [hp, setProc_same]
        exact ⟨fun _ => rfl, fun _ => .inl rfl⟩
      · rw [setProc_ne s _ hp, ← h.mem pid']
        simp [hp]
    card := by
      rw [Finset.card_insert_of_notMem hnot, ← h.card]
      rfl
    commit := fun hc => Bool.noConfusion (hno.symm.trans hc)
    alone := fun pid' hp => by
      rw [hpcs] at hp
      exact Bool.noConfusion (hno.symm.trans (h.alone pid' hp).1)
    fresh := fun pid' op hop' => by
      rcases hops pid' op hop' with rfl | hold
      · exact Nat.lt_succ_self _
      · exact Nat.lt_succ_of_lt (h.fresh pid' op hold)
    known := fun e he => ⟨Nat.lt_succ_of_lt (h.known e he).1, (h.known e he).2⟩
    opened := fun pid' op hop' e he heq => by
      rcases hops pid' op hop' with rfl | hold
      · -- the new operation has not written yet
        have := (h.known e he).1
        rw [heq] at this
        exact absurd this (Nat.lt_irrefl _)
      · exact h.opened pid' op hold e he heq
    once := h.once
    nodup := h.nodup
    logged := fun hni => h.logged fun pid' => hpcs pid' ▸ hni pid'
    installed := fun pid' hp => h.installed pid' (hpcs pid' ▸ hp)
    copied := fun pid' done hp => h.copied pid' done (hpcs pid' ▸ hp)
    cleared := fun pid' hp => h.cleared pid' (hpcs pid' ▸ hp)
    quiet := fun hz => by cases hz
    committed := h.committed }

variable {log : Log}

/-- **log_write** adds to the open transaction. -/
theorem Inv.write {blockno : Nat} {data : Block} {new : Bool}
    (hp : (s.proc pid).op? = some op) (hw : s.log.log_write blockno = .ok (log, new)) :
    Inv (s.record log op blockno data) F := by
  obtain ⟨-, hpos, hno, hpcs⟩ := h.in_op hp
  have hlog : log.outstanding = s.log.outstanding ∧ log.committing = s.log.committing
      ∧ log.block.Nodup ∧ ∀ b, b ∈ log.block ↔ b = blockno ∨ b ∈ s.log.block := by
    unfold Log.log_write at hw
    split at hw
    · cases hw
    split at hw
    · cases hw
    split at hw
    · next hin =>
      cases hw
      refine ⟨rfl, rfl, h.nodup, fun b => ⟨.inr, ?_⟩⟩
      rintro (rfl | hb)
      · exact hin
      · exact hb
    next hnew =>
    cases hw
    refine ⟨rfl, rfl, ?_, fun b => ?_⟩
    · exact (List.nodup_append.mpr ⟨h.nodup, List.nodup_singleton _, fun a ha b hb => by
        rw [List.mem_singleton] at hb
        rintro rfl
        exact hnew (hb ▸ ha)⟩)
    · rw [List.mem_append, List.mem_singleton, or_comm]
  obtain ⟨hout, hcom, hnd, hmem⟩ := hlog
  have hevent : ∀ e ∈ s.events ++ [(⟨op, s.txns.length, blockno, data⟩ : LogEvent Block)],
      e ∈ s.events ∨ (e.op = op ∧ e.txn = s.txns.length) := by
    intro e he
    rcases List.mem_append.mp he with he | he
    · exact .inl he
    · rw [List.mem_singleton] at he
      rw [he]
      exact .inr ⟨rfl, rfl⟩
  exact {
    mem := h.mem
    card := hout.trans h.card
    commit := fun hc => Bool.noConfusion ((hcom.trans hno).symm.trans hc)
    alone := fun pid' hpc => by
      change (s.proc pid').pc?.isSome = true at hpc
      rw [hpcs] at hpc
      cases hpc
    fresh := h.fresh
    known := fun e he => by
      rcases hevent e he with he | ⟨ho, ht⟩
      · exact h.known e he
      · exact ⟨ho ▸ h.fresh pid op hp, ht ▸ le_refl _⟩
    opened := fun pid' op' hp' e he heq => by
      rcases hevent e he with he | ⟨-, ht⟩
      · exact h.opened pid' op' hp' e he heq
      · exact ht
    once := fun e he e' he' heq => by
      rcases hevent e he with he | ⟨ho, ht⟩ <;> rcases hevent e' he' with he' | ⟨ho', ht'⟩
      · exact h.once e he e' he' heq
      · rw [ht']; exact h.opened pid op hp e he (heq.trans ho')
      · rw [ht]; exact (h.opened pid op hp e' he' (heq.symm.trans ho)).symm
      · rw [ht, ht']
    nodup := hnd
    logged := fun _ b => by
      have hold := h.logged (fun pid' => by rw [hpcs pid']; exact fun he => by cases he) b
      rw [record_events, lastWrite_append]
      show (if s.txns.length = s.txns.length ∧ blockno = b then some data else _)
        = if b ∈ log.block then some (Function.update s.cache blockno data b) else none
      by_cases hb : b = blockno
      · rw [if_pos ⟨rfl, hb.symm⟩, if_pos ((hmem b).mpr (.inl hb)), hb, Function.update_self]
      · rw [if_neg (fun hc => hb hc.2.symm), Function.update_of_ne hb]
        refine hold.trans ?_
        simp [hmem, hb]
    installed := fun pid' hpc => by
      change (s.proc pid').pc? = _ at hpc
      rw [hpcs] at hpc
      cases hpc
    copied := fun pid' done hpc => by
      change (s.proc pid').pc? = _ at hpc
      rw [hpcs] at hpc
      cases hpc
    cleared := fun pid' hpc => by
      change (s.proc pid').pc? = _ at hpc
      rw [hpcs] at hpc
      cases hpc
    quiet := fun hz => by
      change log.outstanding = 0 at hz
      omega
    committed := fun txn contents htx b => by
      -- a committed transaction is an earlier one
      have hlt : txn < s.txns.length := (List.getElem?_eq_some_iff.mp htx).1
      rw [record_events, lastWrite_append, if_neg (fun hc => by have := hc.1; dsimp only at this; omega)]
      exact h.committed txn contents htx b }

variable {x : OpState Block}

/-- A process leaves its operation; it may go on to commit. -/
theorem Inv.leave (hp : (s.proc pid).op? = some op)
    (hx : x.op? = none) (hlog : s.log.end_op = .ok (log, x.pc?.isSome))
    (hpc : x.pc? = none ∨ x.pc? = some (enterCommit log)) : Inv (s.moveOn pid x log) (F.erase pid) := by
  obtain ⟨hF, hpos, hno, hpcs⟩ := h.in_op hp
  have hcard := Finset.card_erase_add_one hF
  have hblock : log.block = s.log.block ∧ log.outstanding + 1 = s.log.outstanding
      ∧ log.committing = x.pc?.isSome ∧ (x.pc?.isSome = true ↔ log.outstanding = 0) := by
    unfold Log.end_op at hlog
    rw [hno, if_neg Bool.false_ne_true] at hlog
    split at hlog
    · next hz =>
      injection hlog with hlog
      injection hlog with hl hb
      rw [← hb, ← hl]
      exact ⟨rfl, by dsimp only at hz ⊢; omega, rfl, ⟨fun _ => hz, fun _ => rfl⟩⟩
    next hz =>
    injection hlog with hlog
    injection hlog with hl hb
    rw [← hb, ← hl]
    exact ⟨rfl, by dsimp only at hz ⊢; omega, rfl,
      ⟨fun hc => Bool.noConfusion hc, fun hc => absurd hc hz⟩⟩
  obtain ⟨hblk, hout, hcom, hlast⟩ := hblock
  have hproc : ∀ pid', pid' ≠ pid →
      (s.moveOn pid x log).proc pid' = s.proc pid' :=
    fun pid' hne => setProc_ne s x hne
  have hself : (s.moveOn pid x log).proc pid = x :=
    setProc_same s pid x
  have hops : ∀ pid' op', ((s.moveOn pid x log).proc pid').op?
      = some op' → (s.proc pid').op? = some op' := by
    intro pid' op'
    by_cases hne : pid' = pid
    · rw [hne, hself, hx]; exact fun he => by cases he
    · rw [hproc pid' hne]; exact id
  have hpcs' : ∀ pid' pc, ((s.moveOn pid x log).proc pid').pc?
      = some pc → pid' = pid ∧ x.pc? = some pc := by
    intro pid' pc
    by_cases hne : pid' = pid
    · rw [hne, hself]; exact fun he => ⟨rfl, he⟩
    · rw [hproc pid' hne, hpcs]; exact fun he => by cases he
  have hnoinst : x.pc? ≠ some .install := by
    rcases hpc with hn | hc
    · rw [hn]; exact fun he => by cases he
    · rw [hc]
      unfold enterCommit
      split
      · exact fun he => by cases he
      · exact fun he => by cases he
  exact {
    mem := fun pid' => by
      by_cases hne : pid' = pid
      · rw [hne, hself, hx]
        simp
      · rw [hproc pid' hne, ← h.mem pid', Finset.mem_erase]
        simp [hne]
    card := by
      have := h.card
      show log.outstanding = _
      omega
    commit := fun hc => hlast.mp (hcom ▸ hc)
    alone := fun pid' hpc' => by
      obtain ⟨pc, hpc'⟩ := Option.isSome_iff_exists.mp hpc'
      obtain ⟨hpid, hxpc⟩ := hpcs' pid' pc hpc'
      refine ⟨?_, fun pid'' hp'' => ?_⟩
      · show log.committing = true
        rw [hcom, hxpc]
        rfl
      · obtain ⟨pc'', hpc''⟩ := Option.isSome_iff_exists.mp hp''
        rw [(hpcs' pid'' pc'' hpc'').1, hpid]
    fresh := fun pid' op' hop' => h.fresh pid' op' (hops pid' op' hop')
    known := h.known
    opened := fun pid' op' hop' => h.opened pid' op' (hops pid' op' hop')
    once := h.once
    nodup := by show log.block.Nodup; rw [hblk]; exact h.nodup
    logged := fun _ b => by
      show _ = if b ∈ log.block then _ else _
      rw [hblk]
      exact h.logged (fun pid' => by rw [hpcs pid']; exact fun he => by cases he) b
    installed := fun pid' hi => absurd (hpcs' pid' _ hi).2 hnoinst
    copied := fun pid' done hd => by
      obtain ⟨-, hxpc⟩ := hpcs' pid' _ hd
      have hdone : done = [] := by
        rcases hpc with hn | hc
        · rw [hn] at hxpc; cases hxpc
        · rw [hc] at hxpc
          unfold enterCommit at hxpc
          split at hxpc
          · cases hxpc; rfl
          · cases hxpc
      rw [hdone]
      exact ⟨Nat.zero_le _, rfl⟩
    cleared := fun pid' hd => by
      obtain ⟨-, hxpc⟩ := hpcs' pid' _ hd
      rcases hpc with hn | hc
      · rw [hn] at hxpc; cases hxpc
      · rw [hc] at hxpc
        unfold enterCommit at hxpc
        split at hxpc
        · cases hxpc
        · next hz => exact List.length_eq_zero_iff.mp (by show log.block.length = 0; omega)
    quiet := fun hz hc => Bool.noConfusion ((hcom.trans (hlast.mpr hz)).symm.trans hc)
    committed := h.committed }

/-! ## §5. Commits. -/

variable {pc : CommitPc Block}

/-- The committing process moves on.  Its new place has to satisfy what the
invariant says about places in `commit()`. -/
theorem Inv.advance (hp : (s.proc pid).pc? = some pc)
    {txns : List (List (Nat × Block))} (hx : x.op? = none)
    (hout : log.outstanding = s.log.outstanding)
    (hcom : x.pc?.isSome → log.committing = true) (hzero : log.committing = true → log.outstanding = 0)
    (hknown : s.txns.length ≤ txns.length)
    (hnd : log.block.Nodup)
    (hlogged : x.pc? ≠ some .install → ∀ b, lastWrite s.events txns.length b
      = if b ∈ log.block then some (s.cache b) else none)
    (hinst : x.pc? = some .install → ∀ e ∈ s.events, e.txn ≠ txns.length)
    (hcopied : ∀ done, x.pc? = some (.writeLog done) →
      done.length ≤ log.block.length ∧ done = (log.block.take done.length).map s.cache)
    (hcleared : x.pc? = some .cleared → log.block = [])
    (hquiet : log.committing = false → log.block = [])
    (htx : ∀ txn contents, txns[txn]? = some contents → ∀ b,
      contents.lookup b = lastWrite s.events txn b) :
    Inv { s.setProc pid x with log := log, txns := txns } F := by
  obtain ⟨hc, halone⟩ := h.alone pid (by rw [hp]; rfl)
  have hF : F = ∅ := by
    have := h.commit hc
    rw [h.card] at this
    exact Finset.card_eq_zero.mp this
  have hnoop : ∀ pid', (s.proc pid').op? = none := by
    intro pid'
    have hm := h.mem pid'
    rw [hF] at hm
    cases ho : (s.proc pid').op? with
    | none => rfl
    | some op => rw [ho] at hm; exact absurd (hm.mpr rfl) (Finset.notMem_empty pid')
  have hproc : ∀ pid', pid' ≠ pid →
      ({ s.setProc pid x with log := log, txns := txns } : LogSys Block).proc pid' = s.proc pid' :=
    fun pid' hne => setProc_ne s x hne
  have hself : ({ s.setProc pid x with log := log, txns := txns } : LogSys Block).proc pid = x :=
    setProc_same s pid x
  have hops : ∀ pid', (({ s.setProc pid x with log := log, txns := txns } :
      LogSys Block).proc pid').op? = none := by
    intro pid'
    by_cases hne : pid' = pid
    · rw [hne, hself, hx]
    · rw [hproc pid' hne]; exact hnoop pid'
  have hpcs : ∀ pid' pc', (({ s.setProc pid x with log := log, txns := txns } :
      LogSys Block).proc pid').pc? = some pc' → pid' = pid ∧ x.pc? = some pc' := by
    intro pid' pc'
    by_cases hne : pid' = pid
    · rw [hne, hself]; exact fun he => ⟨rfl, he⟩
    · rw [hproc pid' hne]
      exact fun he => absurd (halone pid' (by rw [he]; rfl)) hne
  exact {
    mem := fun pid' => by rw [hops pid', hF]; simp
    card := by show log.outstanding = _; rw [hout]; exact h.card
    commit := hzero
    alone := fun pid' hpc' => by
      obtain ⟨pc', hpc'⟩ := Option.isSome_iff_exists.mp hpc'
      obtain ⟨hpid, hxpc⟩ := hpcs pid' pc' hpc'
      refine ⟨hcom (by rw [hxpc]; rfl), fun pid'' hp'' => ?_⟩
      obtain ⟨pc'', hpc''⟩ := Option.isSome_iff_exists.mp hp''
      rw [(hpcs pid'' pc'' hpc'').1, hpid]
    fresh := fun pid' op' hop' => by rw [hops pid'] at hop'; cases hop'
    known := fun e he => ⟨(h.known e he).1, le_trans (h.known e he).2 hknown⟩
    opened := fun pid' op' hop' => by rw [hops pid'] at hop'; cases hop'
    once := h.once
    nodup := hnd
    logged := fun hni => hlogged (by have := hni pid; rw [hself] at this; exact this)
    installed := fun pid' hi => hinst (hpcs pid' _ hi).2
    copied := fun pid' done hd => hcopied done (hpcs pid' _ hd).2
    cleared := fun pid' hd => hcleared (hpcs pid' _ hd).2
    quiet := fun _ hcf => hquiet hcf
    committed := htx }

/-- While one process commits, no header is on disk before `writeHead`. -/
theorem Inv.not_installed (hp : (s.proc pid).pc? = some pc)
    (hpc : pc ≠ .install) : ∀ pid', (s.proc pid').pc? ≠ some .install := by
  intro pid' hi
  have := (h.alone pid (by rw [hp]; rfl)).2 pid' (by rw [hi]; rfl)
  rw [this, hp] at hi
  exact hpc (Option.some.inj hi)

omit h in
theorem lookup_zip_map (bs : List Nat) (f : Nat → Block) (b : Nat) :
    (bs.zip (bs.map f)).lookup b = if b ∈ bs then some (f b) else none := by
  induction bs with
  | nil => rfl
  | cons a bs ih =>
    rw [List.map_cons, List.zip_cons_cons, List.lookup_cons, ih]
    by_cases hb : b = a
    · subst hb
      simp
    · rw [beq_eq_false_iff_ne.mpr hb]
      simp [hb]

variable {a : LogStep Block}

theorem Inv.step (hstep : s.step a = .ok s') : ∃ F', s'.Inv F' := by
  cases a with
  | begin_op pid =>
    have hlook : ∀ x, s.proc pid = x → x.op? = none → x.pc? = none → ∃ F', (s.look pid).Inv F' := by
      intro x hx hop hpc
      rw [← hx] at hop hpc
      unfold look
      split
      · refine ⟨F, h.congr rfl rfl rfl rfl rfl (fun pid' => ?_) (fun pid' => ?_)⟩
        · by_cases hp : pid' = pid
          · rw [hp, setProc_same, hop]; rfl
          · rw [setProc_ne s _ hp]
        · by_cases hp : pid' = pid
          · rw [hp, setProc_same, hpc]; rfl
          · rw [setProc_ne s _ hp]
      next log hb =>
      unfold Log.begin_op at hb
      split at hb
      · cases hb
      · next hc =>
        split at hb
        · cases hb
        · cases hb
          exact ⟨_, h.enroll hop hpc (Bool.eq_false_iff.mpr hc)⟩
    simp only [LogSys.step] at hstep
    split at hstep
    · next hx => cases hstep; exact hlook _ hx rfl rfl
    · next hx => cases hstep; exact hlook _ hx rfl rfl
    · cases hstep
  | log_write pid blockno data =>
    simp only [LogSys.step] at hstep
    split at hstep
    · next op hop =>
      cases hw : s.log.log_write blockno with
      | error e => rw [hw] at hstep; cases hstep
      | ok r =>
        rw [hw] at hstep
        cases hstep
        exact ⟨F, h.write (by rw [hop]; rfl) hw⟩
    · cases hstep
  | end_op pid =>
    simp only [LogSys.step] at hstep
    split at hstep
    · next op hop =>
      have hp : (s.proc pid).op? = some op := by rw [hop]; rfl
      cases he : s.log.end_op with
      | error e => rw [he] at hstep; cases hstep
      | ok r =>
        obtain ⟨log, last⟩ := r
        rw [he] at hstep
        cases last with
        | true =>
          cases hstep
          exact ⟨_, h.leave hp rfl he (.inr rfl)⟩
        | false =>
          cases hstep
          exact ⟨_, (h.leave (x := .idle) hp rfl he (.inl rfl)).wakeup⟩
    · cases hstep
  | writeLog pid =>
    simp only [LogSys.step] at hstep
    split at hstep
    · next done hd =>
      have hp : (s.proc pid).pc? = some (.writeLog done) := by rw [hd]; rfl
      split at hstep
      · next blockno hb =>
        cases hstep
        obtain ⟨hlen, hcopy⟩ := h.copied pid done hp
        obtain ⟨hlt, hget⟩ := List.getElem?_eq_some_iff.mp hb
        have hc := (h.alone pid (by rw [hp]; rfl)).1
        refine ⟨F, h.advance hp rfl rfl (fun _ => hc) h.commit (le_refl _) h.nodup
          (fun _ => h.logged (h.not_installed hp (fun he => by cases he)))
          (fun he => by cases he) (fun done' he => ?_) (fun he => by cases he)
          (fun hcf => Bool.noConfusion (hc.symm.trans hcf)) h.committed⟩
        cases he
        refine ⟨by rw [List.length_append, List.length_singleton]; omega, ?_⟩
        rw [List.length_append, List.length_singleton, List.take_add_one, hb, List.map_append,
          ← hcopy]
        rfl
      · cases hstep
    · cases hstep
  | writeHead pid =>
    simp only [LogSys.step] at hstep
    split at hstep
    · next done hd =>
      have hp : (s.proc pid).pc? = some (.writeLog done) := by rw [hd]; rfl
      obtain ⟨hlen, rfl⟩ := Lib.guard_ok hstep
      have hc := (h.alone pid (by rw [hp]; rfl)).1
      have hdone : done = s.log.block.map s.cache := by
        have := (h.copied pid done hp).2
        rw [hlen, List.take_length] at this
        exact this
      refine ⟨F, h.advance hp rfl rfl (fun _ => hc) h.commit (by simp) h.nodup
        (fun hne => absurd rfl hne) (fun _ e he => ?_) (fun _ he => by cases he)
        (fun he => by cases he) (fun hcf => Bool.noConfusion (hc.symm.trans hcf)) ?_⟩
      · have := (h.known e he).2
        rw [List.length_append, List.length_singleton]
        omega
      intro txn contents htx b
      by_cases hlt : txn < s.txns.length
      · rw [List.getElem?_append_left hlt] at htx
        exact h.committed txn contents htx b
      -- the new transaction holds what was logged
      have heq : txn = s.txns.length := by
        have := (List.getElem?_eq_some_iff.mp htx).1
        rw [List.length_append, List.length_singleton] at this
        omega
      subst heq
      rw [List.getElem?_append_right (le_refl _), Nat.sub_self] at htx
      cases htx
      rw [hdone, lookup_zip_map]
      exact (h.logged (h.not_installed hp (fun he => by cases he)) b).symm
    · cases hstep
  | clear pid =>
    simp only [LogSys.step] at hstep
    split at hstep
    · next hd =>
      have hp : (s.proc pid).pc? = some .install := by rw [hd]; rfl
      cases hstep
      have hc := (h.alone pid (by rw [hp]; rfl)).1
      refine ⟨F, h.advance hp rfl rfl (fun _ => hc) h.commit (le_refl _) List.nodup_nil
        (fun _ b => ?_) (fun he => by cases he) (fun _ he => by cases he) (fun _ => rfl)
        (fun _ => rfl) h.committed⟩
      exact lastWrite_none b (h.installed pid hp)
    · cases hstep
  | finish pid =>
    simp only [LogSys.step] at hstep
    split at hstep
    · next hd =>
      have hp : (s.proc pid).pc? = some .cleared := by rw [hd]; rfl
      cases hstep
      have hblock := h.cleared pid hp
      have hidle : (OpState.idle : OpState Block).op? = none := rfl
      have hout : ({ s.log with committing := false } : Log).outstanding = s.log.outstanding := rfl
      have hadv := h.advance hp hidle hout (fun he => by cases he) (fun he => by cases he)
        (le_refl s.txns.length)
        h.nodup (fun _ => h.logged (h.not_installed hp (fun he => by cases he)))
        (fun he => by cases he) (fun _ he => by cases he) (fun he => by cases he)
        (fun _ => hblock) h.committed
      exact ⟨F, hadv.wakeup⟩
    · cases hstep

omit h

theorem Start.inv {size : Nat} (h : s.Start size) : s.Inv ∅ := by
  obtain ⟨start, cache, rfl⟩ := h
  exact {
    mem := fun _ => by simp [OpState.op?]
    card := rfl
    commit := fun hc => by cases hc
    alone := fun _ hp => by cases hp
    fresh := fun _ _ hop => by cases hop
    known := fun _ he => by cases he
    opened := fun _ _ hop => by cases hop
    once := fun _ he => by cases he
    nodup := List.nodup_nil
    logged := fun _ _ => rfl
    installed := fun _ hp => by cases hp
    copied := fun _ _ hp => by cases hp
    cleared := fun _ _ => rfl
    quiet := fun _ _ => rfl
    committed := fun txn _ htx => by cases htx }

/-! ## §6. Grouping. -/

/-- What the log guarantees about operations and transactions. -/
structure Grouped (s : LogSys Block) : Prop where
  exclusive : s.log.committing = true → s.log.outstanding = 0
  noPanic : ∀ a, s.step a ≠ .error (.panic "log.committing")
  /-- `outstanding` counts the operations between `begin_op` and `end_op` -/
  counted : ∃ F : Finset Pid, (∀ pid, pid ∈ F ↔ ∃ op, s.proc pid = .inOp op)
    ∧ s.log.outstanding = F.card
  /-- the writes of one operation are in one transaction -/
  together : ∀ e ∈ s.events, ∀ e' ∈ s.events, e.op = e'.op → e.txn = e'.txn
  /-- which is committed at the latest when the log is idle -/
  flushed : s.log.outstanding = 0 → s.log.committing = false →
    ∀ e ∈ s.events, e.txn < s.txns.length
  /-- a committed transaction holds the last contents written in it -/
  contents : ∀ txn contents, s.txns[txn]? = some contents → ∀ blockno,
    contents.lookup blockno = lastWrite s.events txn blockno

theorem op?_eq_some : x.op? = some op ↔ x = .inOp op := by
  cases x <;> simp [OpState.op?]

theorem op?_isSome : x.op?.isSome = true ↔ ∃ op, x = .inOp op := by
  rw [Option.isSome_iff_exists]
  simp only [op?_eq_some]

/-- A panic comes from `log_write` or `end_op`. -/
theorem step_panic {msg : String} (h : s.step a = .error (.panic msg)) :
    ∃ pid op, (s.proc pid).op? = some op ∧ ((∃ blockno, s.log.log_write blockno = .error (.panic msg))
        ∨ s.log.end_op = .error (.panic msg)) := by
  cases a with
  | log_write pid blockno data =>
    simp only [LogSys.step] at h
    split at h
    · next op hop =>
      refine ⟨pid, op, op?_eq_some.mpr hop, .inl ⟨blockno, ?_⟩⟩
      cases hw : s.log.log_write blockno with
      | ok r => rw [hw] at h; cases h
      | error e => rw [hw] at h; cases h; rfl
    · cases h
  | end_op pid =>
    simp only [LogSys.step] at h
    split at h
    · next op hop =>
      refine ⟨pid, op, op?_eq_some.mpr hop, .inr ?_⟩
      cases he : s.log.end_op with
      | ok r =>
        obtain ⟨log, last⟩ := r
        rw [he] at h
        cases last <;> cases h
      | error e => rw [he] at h; cases h; rfl
    · cases h
  | begin_op pid | clear pid | finish pid => simp only [LogSys.step] at h; split at h <;> cases h
  | writeLog pid | writeHead pid =>
    simp only [LogSys.step] at h
    split at h
    · split at h <;> cases h
    · cases h

include h

/-- Only a full log makes it panic. -/
theorem Inv.panic_full {msg : String} (hstep : s.step a = .error (.panic msg)) :
    msg = "too big a transaction" ∧ 1 ≤ s.log.outstanding
      ∧ (s.log.block.length ≥ LOGSIZE ∨ (s.log.block.length : Int) ≥ (s.log.size : Int) - 1) := by
  obtain ⟨pid, op, hop, hfault⟩ := step_panic hstep
  obtain ⟨-, hpos, hno, -⟩ := h.in_op hop
  rcases hfault with ⟨blockno, hw⟩ | he
  · unfold Log.log_write at hw
    split at hw
    · next hbig =>
      cases hw
      exact ⟨rfl, hpos, hbig⟩
    · rw [if_neg (by omega)] at hw
      split at hw <;> cases hw
  · simp only [Log.end_op, hno, Bool.false_eq_true, if_false] at he
    split at he <;> cases he

theorem Inv.no_panic (a : LogStep Block) : s.step a ≠ .error (.panic "log.committing") :=
  fun hstep => absurd (h.panic_full hstep).1 (by decide)

/-- An event of the open transaction is in the log in memory. -/
theorem Inv.event_logged (hni : ∀ pid, (s.proc pid).pc? ≠ some .install)
    {e : LogEvent Block} (he : e ∈ s.events) (htxn : e.txn = s.txns.length) : e.blockno ∈ s.log.block := by
  by_contra hnot
  have hl := h.logged hni e.blockno
  rw [if_neg hnot] at hl
  unfold lastWrite at hl
  rw [Option.map_eq_none_iff, List.find?_eq_none] at hl
  exact hl e (List.mem_reverse.mpr he) (decide_eq_true ⟨htxn, rfl⟩)

theorem Inv.flushed (hout : s.log.outstanding = 0) (hcom : s.log.committing = false) :
    ∀ e ∈ s.events, e.txn < s.txns.length := by
  have hni : ∀ pid, (s.proc pid).pc? ≠ some .install := by
    intro pid hi
    have := (h.alone pid (by rw [hi]; rfl)).1
    rw [hcom] at this
    cases this
  intro e he
  refine lt_of_le_of_ne (h.known e he).2 fun htxn => ?_
  have hin := h.event_logged hni he htxn
  rw [h.quiet hout hcom] at hin
  cases hin

omit h

/-- The states of all interleavings on a log of `size` blocks. -/
abbrev Reachable (size : Nat) (s : LogSys Block) : Prop :=
  Lib.Reach (Start size) (fun _ _ => True) step s

theorem inv_of_reach {size : Nat} {ok : LogSys Block → LogStep Block → Prop}
    (h : Lib.Reach (Start size) ok step s) : ∃ F, s.Inv F := by
  refine h.invariant (I := fun s => ∃ F, s.Inv F) ?_ ?_
  · exact fun s hs => ⟨∅, hs.inv⟩
  · rintro s a s' ⟨F, hF⟩ - hstep
    exact hF.step hstep

/-- **Grouping**: in every interleaving of any number of processes. -/
theorem log_grouping {size : Nat} (h : s.Reachable size) : s.Grouped := by
  obtain ⟨F, hF⟩ := inv_of_reach h
  exact {
    exclusive := hF.commit
    noPanic := hF.no_panic
    counted := ⟨F, fun pid => (hF.mem pid).trans op?_isSome, hF.card⟩
    together := hF.once
    flushed := hF.flushed
    contents := hF.committed }

/-- Two operations write block 7; the second one ends last and commits. -/
def overlapRun : List (LogStep Nat) :=
  [.begin_op 1, .begin_op 2, .log_write 1 7 10, .log_write 1 8 11, .log_write 2 7 20,
    .end_op 1, .end_op 2, .begin_op 1, .writeLog 2, .writeLog 2, .writeHead 2, .clear 2, .finish 2]

theorem log_grouping_overlapRun : ∃ s : LogSys Nat, s.Reachable LOGSIZE ∧ s.Grouped ∧ s.txns = [[(7, 20), (8, 11)]] := by
  have hreach : ∃ s : LogSys Nat, s.Reachable LOGSIZE
      ∧ decide (s.txns = [[(7, 20), (8, 11)]]) = true :=
    Lib.Reach.of_reaches overlapRun _ ⟨2, fun _ => 0, rfl⟩ (by decide +kernel)
  obtain ⟨s, hrun, htest⟩ := hreach
  exact ⟨s, hrun, log_grouping hrun, of_decide_eq_true htest⟩

/-! ## §7. Admission. -/

/-- The blocks an operation has written. -/
def opBlocks (s : LogSys Block) (op : Nat) : Finset Nat :=
  ((s.events.filter fun e => e.op = op).map LogEvent.blockno).toFinset

/-- No operation writes more than `k` different blocks. -/
def small (k : Nat) (s : LogSys Block) : LogStep Block → Prop
  | .log_write pid blockno _ =>
    match s.proc pid with
    | .inOp op => (insert blockno (s.opBlocks op)).card ≤ k
    | _ => True
  | _ => True

instance (k : Nat) (s : LogSys Block) (a : LogStep Block) : Decidable (s.small k a) := by
  unfold small
  split
  · split <;> infer_instance
  · infer_instance

/-- The blocks written by the operation a process is in. -/
def used (s : LogSys Block) (pid : Pid) : Nat :=
  match (s.proc pid).op? with
  | some op => (s.opBlocks op).card
  | none => 0

/-- Space left to the operations that are open, of MAXOPBLOCKS - 1 blocks each. -/
def Room (s : LogSys Block) (F : Finset Pid) : Prop :=
  s.log.size = LOGSIZE
    ∧ (1 ≤ s.log.outstanding →
        s.log.block.length + ∑ pid ∈ F, (MAXOPBLOCKS - 1 - s.used pid) ≤ LOGSIZE - 2)

theorem mem_opBlocks {b : Nat} : b ∈ s.opBlocks op ↔ ∃ e ∈ s.events, e.op = op ∧ e.blockno = b := by
  unfold opBlocks
  simp [and_assoc]

include h

/-- An open operation's blocks are in the log. -/
theorem Inv.opBlocks_logged {b : Nat} (hp : (s.proc pid).op? = some op)
    (hb : b ∈ s.opBlocks op) : b ∈ s.log.block := by
  obtain ⟨e, he, hop, rfl⟩ := mem_opBlocks.mp hb
  obtain ⟨-, -, -, hpcs⟩ := h.in_op hp
  exact h.event_logged (fun pid' hi => by rw [hpcs pid'] at hi; cases hi) he
    (h.opened pid op hp e he hop)

variable {F' : Finset Pid}

theorem Inv.unique (h' : s.Inv F') : F = F' := by
  ext pid
  rw [h.mem, h'.mem]

/-- `begin_op` admits an operation only if there is room for it. -/
theorem Room.enroll (hroom : s.Room F) (hop : (s.proc pid).op? = none)
    (hno : s.log.committing = false)
    (hfit : s.log.block.length + (s.log.outstanding + 1) * MAXOPBLOCKS ≤ LOGSIZE) :
    Room (s.enroll pid { s.log with outstanding := s.log.outstanding + 1 }) (insert pid F) := by
  refine ⟨hroom.1, fun _ => ?_⟩
  have hnot : pid ∉ F := by
    rw [h.mem, hop]
    exact Bool.false_ne_true
  -- the new operation has written nothing, the others are as before
  have hnew : used (s.enroll pid { s.log with outstanding := s.log.outstanding + 1 }) pid = 0 := by
    unfold used
    rw [enroll_proc, setProc_same]
    show (s.opBlocks s.nextOp).card = 0
    rw [Finset.card_eq_zero, Finset.eq_empty_iff_forall_notMem]
    intro b hb
    obtain ⟨e, he, heq, -⟩ := mem_opBlocks.mp hb
    have := (h.known e he).1
    omega
  have hold : ∀ pid' ∈ F, MAXOPBLOCKS - 1 - used (s.enroll pid { s.log with outstanding := s.log.outstanding + 1 }) pid' = MAXOPBLOCKS - 1 - s.used pid' := by
    intro pid' hF
    have hne : pid' ≠ pid := fun he => hnot (he ▸ hF)
    unfold used
    rw [enroll_proc, setProc_ne s _ hne]
    rfl
  rw [Finset.sum_insert hnot, hnew, Finset.sum_congr rfl hold]
  have hsum : ∑ pid' ∈ F, (MAXOPBLOCKS - 1 - s.used pid') ≤ F.card * (MAXOPBLOCKS - 1) :=
    Finset.sum_le_card_nsmul F _ _ fun pid' _ => Nat.sub_le _ _
  rw [← h.card] at hsum
  show s.log.block.length + _ ≤ _
  by_cases hz : s.log.outstanding = 0
  · rw [h.quiet hz hno]
    simp only [List.length_nil, MAXOPBLOCKS, LOGSIZE] at *
    omega
  · simp only [MAXOPBLOCKS, LOGSIZE] at *
    omega

theorem Room.write (hroom : s.Room F) {blockno : Nat} {data : Block}
    {new : Bool} (hp : (s.proc pid).op? = some op) (hsmall : (insert blockno (s.opBlocks op)).card ≤ MAXOPBLOCKS - 1)
    (hw : s.log.log_write blockno = .ok (log, new)) : Room (s.record log op blockno data) F := by
  obtain ⟨hF, hpos, -, -⟩ := h.in_op hp
  obtain ⟨hsize, hfit⟩ := hroom
  have hblocks : ∀ op', (s.record log op blockno data).opBlocks op'
      = if op = op' then insert blockno (s.opBlocks op') else s.opBlocks op' := by
    intro op'
    unfold opBlocks
    rw [record_events, List.filter_append, List.map_append, List.toFinset_append]
    by_cases heq : op = op'
    · rw [if_pos heq]
      simp [heq]
    · rw [if_neg heq]
      simp [heq]
  have hmono : ∀ pid', s.used pid' ≤ (s.record log op blockno data).used pid' := by
    intro pid'
    unfold used
    show _ ≤ match (s.proc pid').op? with
      | some op' => ((s.record log op blockno data).opBlocks op').card
      | none => 0
    split
    · rw [hblocks]
      split
      · exact Finset.card_le_card (Finset.subset_insert _ _)
      · exact le_refl _
    · exact le_refl _
  have hsum := Finset.sum_le_sum fun pid' (_ : pid' ∈ F) =>
    Nat.sub_le_sub_left (hmono pid') (MAXOPBLOCKS - 1)
  have hlog : log.size = s.log.size ∧ (log.block.length = s.log.block.length
      ∨ (blockno ∉ s.log.block ∧ log.block.length = s.log.block.length + 1)) := by
    unfold Log.log_write at hw
    split at hw
    · cases hw
    · split at hw
      · cases hw
      · split at hw
        · cases hw; exact ⟨rfl, .inl rfl⟩
        · next hnew => cases hw; exact ⟨rfl, .inr ⟨hnew, List.length_append⟩⟩
  refine ⟨hlog.1.trans hsize, fun _ => ?_⟩
  show log.block.length + _ ≤ _
  rcases hlog.2 with hlen | ⟨hnew, hlen⟩
  · -- absorbed: the log does not grow
    omega
  -- a block new to the log is new to the operation
  have hfresh : blockno ∉ s.opBlocks op := fun hb => hnew (h.opBlocks_logged hp hb)
  rw [Finset.card_insert_of_notMem hfresh] at hsmall
  have hused : s.used pid = (s.opBlocks op).card := by
    unfold used
    rw [hp]
  have hself : (s.record log op blockno data).used pid = (s.opBlocks op).card + 1 := by
    show (match (s.proc pid).op? with
      | some op' => ((s.record log op blockno data).opBlocks op').card
      | none => 0) = _
    rw [hp]
    show ((s.record log op blockno data).opBlocks op).card = _
    rw [hblocks, if_pos rfl, Finset.card_insert_of_notMem hfresh]
  have hlt := Finset.sum_lt_sum (fun pid' (_ : pid' ∈ F) =>
    Nat.sub_le_sub_left (hmono pid') (MAXOPBLOCKS - 1)) ⟨pid, hF, by rw [hself, hused]; omega⟩
  omega

theorem Room.leave (hroom : s.Room F) (hp : (s.proc pid).op? = some op)
    {last : Bool} (hlog : s.log.end_op = .ok (log, last)) : Room (s.moveOn pid x log) (F.erase pid) := by
  obtain ⟨hF, hpos, hno, -⟩ := h.in_op hp
  have hkeep : log.size = s.log.size ∧ log.block = s.log.block := by
    unfold Log.end_op at hlog
    rw [hno, if_neg Bool.false_ne_true] at hlog
    split at hlog <;> cases hlog <;> exact ⟨rfl, rfl⟩
  refine ⟨hkeep.1.trans hroom.1, fun _ => ?_⟩
  have hsame : ∀ pid' ∈ F.erase pid, MAXOPBLOCKS - 1 - used (s.moveOn pid x log) pid'
      = MAXOPBLOCKS - 1 - s.used pid' := by
    intro pid' hm
    unfold used
    rw [show (s.moveOn pid x log).proc pid' = s.proc pid' from
      setProc_ne s x (Finset.ne_of_mem_erase hm)]
    rfl
  rw [Finset.sum_congr rfl hsame]
  show log.block.length + _ ≤ _
  rw [hkeep.2]
  refine le_trans (Nat.add_le_add_left ?_ _) (hroom.2 hpos)
  exact Finset.sum_le_sum_of_subset (Finset.erase_subset pid F)

omit h in
/-- Processes outside operations do not change the room. -/
theorem Room.congr (hroom : s.Room F) (hlog : s'.log = s.log) (hev : s'.events = s.events)
    (hop : ∀ pid, (s'.proc pid).op? = (s.proc pid).op?) : s'.Room F := by
  have hused : ∀ pid, s'.used pid = s.used pid := by
    intro pid
    unfold used opBlocks
    rw [hop, hev]
  unfold Room
  rw [hlog]
  simp only [hused]
  exact hroom

/-- A step of `commit()` happens while no operation is open. -/
theorem Room.of_commit (hroom : s.Room F) (hp : (s.proc pid).pc?.isSome) (hsize : s'.log.size = s.log.size)
    (hout : s'.log.outstanding = s.log.outstanding) : s'.Room F' := by
  refine ⟨hsize.trans hroom.1, fun hpos => ?_⟩
  have := h.commit (h.alone pid hp).1
  omega

theorem Room.step (hroom : s.Room F)
    (hsmall : s.small (MAXOPBLOCKS - 1) a) (hstep : s.step a = .ok s') : ∃ F', s'.Inv F' ∧ s'.Room F' := by
  obtain ⟨F', hF'⟩ := h.step hstep
  refine ⟨F', hF', ?_⟩
  cases a with
  | begin_op pid =>
    have hlook : ∀ x, s.proc pid = x → x.op? = none → x.pc? = none → s' = s.look pid →
        s'.Room F' := by
      rintro x hx hop hpc rfl
      rw [← hx] at hop hpc
      unfold look at hF' ⊢
      split at hF'
      · have hops : ∀ pid', ((s.setProc pid .sleeping).proc pid').op? = (s.proc pid').op? := by
          intro pid'
          by_cases hp : pid' = pid
          · rw [hp, setProc_same, hop]; rfl
          · rw [setProc_ne s _ hp]
        have hFF : F = F' := by
          ext pid'
          rw [h.mem, hF'.mem, hops]
        rw [← hFF]
        exact hroom.congr rfl rfl hops
      next log hb =>
      unfold Log.begin_op at hb
      split at hb
      · cases hb
      next hc =>
      split at hb
      · cases hb
      · next hfit =>
        cases hb
        have hno := Bool.eq_false_iff.mpr hc
        rw [hF'.unique (h.enroll hop hpc hno)]
        exact Room.enroll h hroom hop hno (Nat.le_of_not_gt hfit)
    simp only [LogSys.step] at hstep
    split at hstep
    · next hx => cases hstep; exact hlook _ hx rfl rfl rfl
    · next hx => cases hstep; exact hlook _ hx rfl rfl rfl
    · cases hstep
  | log_write pid blockno data =>
    simp only [LogSys.step] at hstep
    split at hstep
    · next op hop =>
      have hp : (s.proc pid).op? = some op := by rw [hop]; rfl
      have hcard : (insert blockno (s.opBlocks op)).card ≤ MAXOPBLOCKS - 1 := by
        simp only [small, hop] at hsmall
        exact hsmall
      cases hw : s.log.log_write blockno with
      | error e => rw [hw] at hstep; cases hstep
      | ok r =>
        rw [hw] at hstep
        cases hstep
        rw [hF'.unique (h.write hp hw)]
        exact Room.write h hroom hp hcard hw
    · cases hstep
  | end_op pid =>
    simp only [LogSys.step] at hstep
    split at hstep
    · next op hop =>
      have hp : (s.proc pid).op? = some op := by rw [hop]; rfl
      cases he : s.log.end_op with
      | error e => rw [he] at hstep; cases hstep
      | ok r =>
        obtain ⟨log, last⟩ := r
        rw [he] at hstep
        cases last with
        | true =>
          cases hstep
          rw [hF'.unique (h.leave (x := .commit (enterCommit log)) hp rfl he (.inr rfl))]
          exact Room.leave h hroom hp he
        | false =>
          cases hstep
          rw [hF'.unique (h.leave (x := .idle) hp rfl he (.inl rfl)).wakeup]
          exact (Room.leave h hroom hp he).congr rfl rfl (wakeup_op _)
    · cases hstep
  | writeLog pid | writeHead pid =>
    simp only [LogSys.step] at hstep
    split at hstep
    · next done hd =>
      split at hstep
      · cases hstep; exact Room.of_commit h hroom (show (s.proc pid).pc?.isSome by rw [hd]; rfl) rfl rfl
      · cases hstep
    · cases hstep
  | clear pid | finish pid =>
    simp only [LogSys.step] at hstep
    split at hstep
    · next hd => cases hstep; exact Room.of_commit h hroom (show (s.proc pid).pc?.isSome by rw [hd]; rfl) rfl rfl
    · cases hstep

omit h

theorem Room.no_panic (hroom : s.Room F) (h : s.Inv F) (a : LogStep Block) :
    s.step a ≠ .error (.panic "too big a transaction") := by
  intro hstep
  obtain ⟨-, hpos, hbig⟩ := h.panic_full hstep
  obtain ⟨hsize, hfit⟩ := hroom
  simp only [LOGSIZE, MAXOPBLOCKS] at hbig hfit hsize
  omega

/-- **Admission control suffices** for operations of at most MAXOPBLOCKS - 1
blocks, on the log that mkfs makes. -/
theorem log_admission (h : Lib.Reach (Start LOGSIZE) (small (MAXOPBLOCKS - 1)) step s)
    (a : LogStep Block) : s.step a ≠ .error (.panic "too big a transaction") := by
  have hinv : ∃ F, s.Inv F ∧ s.Room F := by
    refine h.invariant (I := fun s => ∃ F, s.Inv F ∧ s.Room F) ?_ ?_
    · rintro s ⟨start, cache, rfl⟩
      exact ⟨∅, Start.inv ⟨start, cache, rfl⟩, rfl, fun hpos => by cases hpos⟩
    · rintro s a s' ⟨F, hF, hroom⟩ hsmall hstep
      exact Room.step hF hroom hsmall hstep
  obtain ⟨F, hF, hroom⟩ := hinv
  exact hroom.no_panic hF a

/-- Two operations of nine blocks. -/
def nineRun : List (LogStep Nat) :=
  [.begin_op 1, .begin_op 2] ++ (List.range 9).map (fun b => .log_write 1 b 0)
    ++ (List.range 9).map (fun b => .log_write 2 (9 + b) 0)

theorem log_admission_nineRun : ∃ s : LogSys Nat,
    Lib.Reach (Start LOGSIZE) (small (MAXOPBLOCKS - 1)) step s ∧ s.log.block.length = 18
      ∧ ∀ a, s.step a ≠ .error (.panic "too big a transaction") := by
  have hreach : ∃ s : LogSys Nat, Lib.Reach (Start LOGSIZE) (small (MAXOPBLOCKS - 1)) step s
      ∧ decide (s.log.block.length = 18) = true :=
    Lib.Reach.of_reaches nineRun _ ⟨2, fun _ => 0, rfl⟩ (by decide +kernel)
  obtain ⟨s, hrun, htest⟩ := hreach
  exact ⟨s, hrun, of_decide_eq_true htest, log_admission hrun⟩

/-- Three operations that together have logged 29 blocks. -/
def tenRun : List (LogStep Nat) :=
  [.begin_op 1, .begin_op 2, .begin_op 3] ++ (List.range 10).map (fun b => .log_write 1 b 0)
    ++ (List.range 10).map (fun b => .log_write 2 (10 + b) 0)
    ++ (List.range 9).map (fun b => .log_write 3 (20 + b) 0)

/-- **The boundary**: three operations of MAXOPBLOCKS blocks are admitted
together, but the tenth block of the third one is too much for a log whose
LOGSIZE blocks include the header. -/
theorem admission_boundary : ∃ s : LogSys Nat, Lib.Reach (Start LOGSIZE) (small MAXOPBLOCKS) step s
      ∧ s.small MAXOPBLOCKS (.log_write 3 29 0)
      ∧ s.step (.log_write 3 29 0) = .error (.panic "too big a transaction") := by
  have hreach : ∃ s : LogSys Nat, Lib.Reach (Start LOGSIZE) (small MAXOPBLOCKS) step s
      ∧ decide (s.small MAXOPBLOCKS (.log_write 3 29 0) ∧ (s.proc 3).op? = some 2
        ∧ s.log = ⟨2, 30, 3, false, List.range 29⟩) = true :=
    Lib.Reach.of_reaches tenRun _ ⟨2, fun _ => 0, rfl⟩ (by decide +kernel)
  obtain ⟨s, hrun, htest⟩ := hreach
  obtain ⟨hsmall, hproc, hlog⟩ := of_decide_eq_true htest
  refine ⟨s, hrun, hsmall, ?_⟩
  simp only [step, op?_eq_some.mp hproc, hlog]
  rfl

/-! ## §8. Waiting for the log. -/

/-- Inside an operation, or in `commit()`. -/
def inside (s : LogSys Block) (pid : Pid) : Prop := (s.proc pid).op?.isSome ∨ (s.proc pid).pc?.isSome

/-- Who sleeps, or would find a commit going on, is not alone. -/
def Awaited (s : LogSys Block) : Prop :=
  (s.log.committing = true ∨ ∃ pid, s.proc pid = .sleeping) → ∃ pid, s.inside pid

theorem wakeup_awaited (hno : s.log.committing = false) : s.wakeup.Awaited := by
  rintro (hc | ⟨pid, hp⟩)
  · cases hno.symm.trans hc
  · simp only [wakeup] at hp
    split at hp
    · cases hp
    · contradiction

/-- **begin_op** finds room, or somebody inside. -/
theorem Awaited.look (hw : s.Awaited) (h : s.Inv F) (hp : s.proc pid = .idle ∨ s.proc pid = .woken) :
    ∃ pid', (s.look pid).inside pid' := by
  unfold LogSys.look
  cases hb : s.log.begin_op with
  | some log => exact ⟨pid, .inl (by simp [enroll, OpState.op?])⟩
  | none =>
    have hsome : ∃ pid', s.inside pid' := by
      by_cases hc : s.log.committing = true
      · exact hw (.inl hc)
      -- with nobody inside, the log is empty and has room for an operation
      have hne : s.log.outstanding ≠ 0 := fun hzero => by
        simp [Log.begin_op, hc, hzero, h.quiet hzero (by simpa using hc), MAXOPBLOCKS, LOGSIZE] at hb
      obtain ⟨pid', hin⟩ := Finset.card_ne_zero.mp (h.card ▸ hne)
      exact ⟨pid', .inl ((h.mem pid').mp hin)⟩
    obtain ⟨pid', hin⟩ := hsome
    have hne : pid' ≠ pid := by
      rintro rfl
      rcases hp with hp | hp <;> simp [inside, hp, OpState.op?, OpState.pc?] at hin
    exact ⟨pid', by rwa [inside, setProc_ne _ _ hne]⟩

theorem Awaited.step (hw : s.Awaited) (h : s.Inv F) (hst : s.step a = .ok s') : s'.Awaited := by
  cases a with
  | begin_op pid =>
    simp only [LogSys.step] at hst
    split at hst
    · next hp => cases hst; exact fun _ => hw.look h (.inl hp)
    · next hp => cases hst; exact fun _ => hw.look h (.inr hp)
    · cases hst
  | log_write pid blockno data =>
    simp only [LogSys.step] at hst
    split at hst
    · next op hop =>
      obtain ⟨⟨log, new⟩, -, hst⟩ := Lib.bind_ok hst
      cases hst
      exact fun _ => ⟨pid, .inl (by simp [record, hop, OpState.op?])⟩
    · cases hst
  | end_op pid =>
    simp only [LogSys.step] at hst
    split at hst
    · obtain ⟨⟨log, last⟩, hend, hst⟩ := Lib.bind_ok hst
      cases last with
      | true =>
        cases hst
        exact fun _ => ⟨pid, .inr (by simp [moveOn, OpState.pc?])⟩
      | false =>
        cases hst
        simp only [Log.end_op] at hend
        split_ifs at hend with hc
        · cases hend
        cases hend
        exact wakeup_awaited (Bool.eq_false_iff.mpr hc)
    · cases hst
  | writeLog pid | writeHead pid =>
    simp only [LogSys.step] at hst
    split at hst
    · split at hst
      · cases hst
        exact fun _ => ⟨pid, .inr (by simp [OpState.pc?])⟩
      · cases hst
    · cases hst
  | clear pid =>
    simp only [LogSys.step] at hst
    split at hst
    · cases hst
      exact fun _ => ⟨pid, .inr (by simp [moveOn, OpState.pc?])⟩
    · cases hst
  | finish pid =>
    simp only [LogSys.step] at hst
    split at hst
    · cases hst
      exact wakeup_awaited rfl
    · cases hst

/-- **Nobody waits for the log in vain**: while a process sleeps in `begin_op`, another is inside an operation or commits. -/
theorem no_stranded_operation {size : Nat} (h : s.Reachable size) (hp : s.proc pid = .sleeping) : ∃ pid', s.inside pid' := by
  have hawait : s.Awaited := by
    clear hp
    induction h with
    | start hs =>
      obtain ⟨start, cache, rfl⟩ := hs
      simp [Awaited]
    | next hr _ hst ih =>
      obtain ⟨F, hF⟩ := inv_of_reach hr
      exact ih.step hF hst
  exact hawait (.inr ⟨pid, hp⟩)

theorem no_stranded_operation_commit : ∃ s : LogSys Nat, s.Reachable LOGSIZE ∧ s.proc 1 = .sleeping ∧ ∃ pid, s.inside pid := by
  have h0 : @Reachable Nat LOGSIZE ⟨⟨2, LOGSIZE, 0, false, []⟩, fun _ => 0, fun _ => .idle, 0, [], []⟩ :=
    .start ⟨2, fun _ => 0, rfl⟩
  have h1 := ((h0.next (i := .begin_op 2) trivial rfl).next (i := .end_op 2) trivial rfl).next (i := .begin_op 1) trivial rfl
  exact ⟨_, h1, rfl, @no_stranded_operation _ _ 1 _ h1 rfl⟩

end LogSys

end Xv6
