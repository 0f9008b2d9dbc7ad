/-
  Xv6.Fs.FlatStore — the buffer cache and the log together are a flat store
  of blocks (`kernel/bio.c`, `kernel/log.c`).

  `store` is the abstract store: it changes by `log_write` only, to what the
  caller has left in the buffer.  Blocks are read, changed, logged and
  released by any processes; a commit goes on one block at a time, and reads
  (with the evictions they force) happen between its turns.

  What protects a logged block from being recycled before it is home is its
  pin: `Inv` ties pins to the blocks that are logged and not yet installed.

  Main results:
    * `flat_store`    — what is read, and the pins, in every run in which
      buffers are logged before they are released,
    * `unlogged_read` — a run of `writei` in which one is not,
    * `store_on_disk` — where the store is on disk.
-/
import Xv6.Fs.Recovery

namespace Xv6

open Function (update update_eq_self update_of_ne update_self)
open Lib (bind_ok)

/-- the device of the root file system -/
def ROOTDEV : Nat := 1

/-! ## §1. The system. -/

/-- How far the commit has come, if one is going on. -/
inductive CommitPhase where
  | idle
  /-- `write_log` has written `tail` blocks -/
  | writeLog (tail : Nat)
  | head
  /-- `install_trans` has installed `tail` blocks -/
  | install (tail : Nat)
  /-- `lh.n = 0`, the header on disk not yet cleared -/
  | clear
  | cleared
  deriving DecidableEq, Repr

/-- Cache, disk and log; `dirty` marks buffers changed and not yet logged,
`pins` counts `bpin` minus `bunpin`. -/
structure FlatSys where
  c : Bcache Words
  disk : Nat → Nat → Words
  log : Log
  phase : CommitPhase
  store : Nat → Words
  dirty : BufId → Bool
  pins : BufId → Nat

namespace FlatSys

/-- `bread(dev, blockno)` -/
def bread (s : FlatSys) (pid : Pid) (dev blockno : Nat) : FsResult (FlatSys × BufId) := do
  let (c, b) ← s.c.bread s.disk pid dev blockno
  .ok ({ s with c := c }, b)

/-- `brelse(b)` -/
def brelse (s : FlatSys) (pid : Pid) (b : BufId) : FsResult FlatSys := do
  let c ← s.c.unlock pid b
  .ok { s with c := c.brelse b }

/-- The buffer with new contents. -/
def setData (s : FlatSys) (b : BufId) (data : Words) : Bcache Words :=
  s.c.set b { s.c.buf b with data := data }

/-- The disk after the buffer is written. -/
def writeDisk (s : FlatSys) (b : BufId) (data : Words) : Nat → Nat → Words :=
  update s.disk (s.c.buf b).dev
    (update (s.disk (s.c.buf b).dev) (s.c.buf b).blockno data)

/-- `memmove(b->data, data, BSIZE); bwrite(b)` by the holder of `b` -/
def bwrite (s : FlatSys) (b : BufId) (data : Words) : FlatSys :=
  { s with c := s.setData b data, disk := s.writeDisk b data }

/-- `bpin(b)` -/
def bpin (s : FlatSys) (b : BufId) : FlatSys :=
  { s with c := s.c.bpin b, pins := update s.pins b (s.pins b + 1) }

/-- `bunpin(b)` -/
def bunpin (s : FlatSys) (b : BufId) : FlatSys :=
  { s with c := s.c.bunpin b, pins := update s.pins b (s.pins b - 1) }

/-- One turn of the loop of `write_log`. -/
def writeLogTurn (s : FlatSys) (pid : Pid) (tail blockno : Nat) : FsResult FlatSys := do
  let (s, toBuf) ← s.bread pid ROOTDEV (s.log.start + tail + 1)
  let (s, fromBuf) ← s.bread pid ROOTDEV blockno
  let s := s.bwrite toBuf (s.c.buf fromBuf).data
  let s ← s.brelse pid fromBuf
  s.brelse pid toBuf

/-- `write_head()` -/
def writeHead (s : FlatSys) (pid : Pid) : FsResult FlatSys := do
  let (s, b) ← s.bread pid ROOTDEV s.log.start
  let s := s.bwrite b (write_head s.log.block (s.c.buf b).data)
  s.brelse pid b

/-- One turn of the loop of `install_trans(0)`. -/
def installTurn (s : FlatSys) (pid : Pid) (tail blockno : Nat) : FsResult FlatSys := do
  let (s, lbuf) ← s.bread pid ROOTDEV (s.log.start + tail + 1)
  let (s, dbuf) ← s.bread pid ROOTDEV blockno
  let s := s.bwrite dbuf (s.c.buf lbuf).data
  let s := s.bunpin dbuf
  let s ← s.brelse pid lbuf
  s.brelse pid dbuf

/-- The commit goes on. -/
def setPhase (s : FlatSys) (phase : CommitPhase) : FlatSys := { s with phase := phase }

/-- The next turn of `commit()`, and the end of `end_op` after it. -/
def commit (s : FlatSys) (pid : Pid) : FsResult FlatSys :=
  match s.phase with
  | .idle => .error .disabled
  | .writeLog tail =>
    match s.log.block[tail]? with
    | some blockno => do
        let s ← s.writeLogTurn pid tail blockno
        .ok (s.setPhase (.writeLog (tail + 1)))
    | none => .ok (s.setPhase .head)
  | .head => do
      let s ← s.writeHead pid
      .ok (s.setPhase (.install 0))
  | .install tail =>
    match s.log.block[tail]? with
    | some blockno => do
        let s ← s.installTurn pid tail blockno
        .ok (s.setPhase (.install (tail + 1)))
    | none => .ok { s with log := { s.log with block := [] }, phase := .clear }
  | .clear => do
      let s ← s.writeHead pid
      .ok (s.setPhase .cleared)
  | .cleared => .ok { s with log := { s.log with committing := false }, phase := .idle }

/-- A block of the log area. -/
def inLog (s : FlatSys) (x : Nat) : Prop := s.log.start ≤ x ∧ x < s.log.start + s.log.size

instance (s : FlatSys) (x : Nat) : Decidable (s.inLog x) := by
  unfold inLog
  infer_instance

/-- The process holds the buffer of a block outside the log. -/
def holdsHome (s : FlatSys) (pid : Pid) (b : BufId) : Prop :=
  (s.c.buf b).locked = some pid ∧ (s.c.buf b).dev = ROOTDEV ∧ ¬ s.inLog (s.c.buf b).blockno

instance (s : FlatSys) (pid : Pid) (b : BufId) : Decidable (s.holdsHome pid b) := by
  unfold holdsHome
  infer_instance

/-- The steps of operations and commits. -/
inductive FlatStep where
  | begin_op
  | bread (pid : Pid) (dev blockno : Nat)
  /-- inside an operation, the holder changes the buffer -/
  | modify (pid : Pid) (b : BufId) (data : Words)
  | log_write (pid : Pid) (b : BufId)
  | brelse (pid : Pid) (b : BufId)
  | end_op
  | commit (pid : Pid)

/-- The effect of `log_write(b)` on cache and abstract store. -/
def logged (s : FlatSys) (b : BufId) (log : Log) (new : Bool) : FlatSys :=
  let s := if new then s.bpin b else s
  { s with
    log := log
    store := update s.store (s.c.buf b).blockno (s.c.buf b).data
    dirty := update s.dirty b false }

/-- Where a commit starts. -/
def firstPhase (log : Log) : CommitPhase := if log.block.length > 0 then .writeLog 0 else .cleared

/-- What a step does. -/
def step (s : FlatSys) : FlatStep → FsResult FlatSys
  | .begin_op =>
    match s.log.begin_op with
    | some log => .ok { s with log := log }
    | none => .error .disabled
  | .bread pid dev blockno => do
      let (s, _) ← s.bread pid dev blockno
      .ok s
  | .modify pid b data =>
    if s.holdsHome pid b ∧ 1 ≤ s.log.outstanding then
      .ok { s with c := s.setData b data, dirty := update s.dirty b true }
    else .error .disabled
  | .log_write pid b =>
    if s.holdsHome pid b then do
      let (log, new) ← s.log.log_write (s.c.buf b).blockno
      .ok (s.logged b log new)
    else .error .disabled
  | .brelse pid b => s.brelse pid b
  | .end_op =>
    if 1 ≤ s.log.outstanding then do
      let (log, last) ← s.log.end_op
      .ok { s with log := log, phase := if last then firstPhase log else s.phase }
    else .error .disabled
  | .commit pid => s.commit pid

/-- With an empty log, any disk, and a cache. -/
def init (c : Bcache Words) (disk : Nat → Nat → Words) (start size : Nat) : FlatSys :=
  ⟨c, disk, ⟨start, size, 0, false, []⟩, .idle, disk ROOTDEV, fun _ => false, fun _ => 0⟩

/-- A cache in which no buffer is in use and valid buffers have the contents
of the disk: what `binit` leaves, and `initlog`. -/
structure Quiet (c : Bcache Words) (disk : Nat → Nat → Words) : Prop where
  listed : ∃ l, c.Listed l
  unique : c.Unique
  refcnt : ∀ b, (c.buf b).refcnt = 0
  free : ∀ b, (c.buf b).locked = none
  data : ∀ b, (c.buf b).valid = true → (c.buf b).data = disk (c.buf b).dev (c.buf b).blockno

/-- After `initlog`; the log area has at least its header block. -/
def Start (s : FlatSys) : Prop :=
  ∃ c disk start size, Quiet c disk ∧ 0 < size ∧ s = init c disk start size

/-- A buffer is released only when its changes have been logged. -/
def releasesLogged (s : FlatSys) : FlatStep → Bool
  | .brelse _ b => !s.dirty b
  | _ => true

/-- The states of all runs that log what they change. -/
abbrev Reachable (s : FlatSys) : Prop := Lib.Reach Start (fun s i => s.releasesLogged i = true) step s

/-- Blocks logged and not yet installed. -/
def pending (s : FlatSys) : List Nat :=
  match s.phase with
  | .install tail => s.log.block.drop tail
  | _ => s.log.block

/-! ## §2. The invariant of cache and disk. -/

/-- A buffer with its pins and its dirty mark, `P` being the blocks pinned. -/
structure BufOk (s : FlatSys) (P : List Nat) (y : Buf Words) (n : Nat) (d : Bool) : Prop where
  refcnt : y.refcnt = (if y.locked = none then 0 else 1) + n
  pins : n = if y.dev = ROOTDEV ∧ y.blockno ∈ P then 1 else 0
  valid : y.locked ≠ none → y.valid = true
  dirty : d = true → y.locked ≠ none
  home : y.valid = true → y.dev = ROOTDEV → ¬ s.inLog y.blockno → d = false →
    y.data = s.store y.blockno
  log : y.valid = true → y.dev = ROOTDEV → s.inLog y.blockno → y.data = s.disk ROOTDEV y.blockno

/-- Cache, disk and store agree, with the blocks `P` not yet at home. -/
structure Inv (s : FlatSys) (P : List Nat) : Prop where
  listed : ∃ l, s.c.Listed l
  unique : s.c.Unique
  bufs : ∀ b, s.BufOk P (s.c.buf b) (s.pins b) (s.dirty b)
  /-- a pinned block is in the cache -/
  cached : ∀ x ∈ P, ∃ b, s.c.caches ROOTDEV x b = true ∧ (s.c.buf b).valid = true
  /-- any other block is on disk -/
  home : ∀ x, ¬ s.inLog x → x ∉ P → s.disk ROOTDEV x = s.store x
  outside : ∀ x ∈ P, ¬ s.inLog x

variable {s s' : FlatSys} {P : List Nat} {b : BufId} {pid : Pid}

/-- **One buffer changes**, its pins and its dirty mark with it. -/
theorem Inv.setBuf (h : s.Inv P) {y : Buf Words} {n : Nat} {d : Bool}
    (hunique : (s.c.set b y).Unique) (hy : s.BufOk P y n d)
    (hkeep : s.pins b = 1 → y.dev = (s.c.buf b).dev ∧ y.blockno = (s.c.buf b).blockno
      ∧ ((s.c.buf b).valid = true → y.valid = true)) :
    Inv { s with
      c := s.c.set b y
      pins := update s.pins b n
      dirty := update s.dirty b d } P := by
  obtain ⟨l, hlisted⟩ := h.listed
  refine ⟨⟨l, hlisted.ring, hlisted.all⟩, hunique, fun b' => ?_, fun x hx => ?_, h.home, h.outside⟩
  · by_cases hb : b' = b
    · subst hb
      dsimp only
      rw [Bcache.set_same, update_self, update_self]
      exact ⟨hy.refcnt, hy.pins, hy.valid, hy.dirty, hy.home, hy.log⟩
    · have hold := h.bufs b'
      dsimp only
      rw [Bcache.set_ne _ _ hb, update_of_ne hb, update_of_ne hb]
      exact ⟨hold.refcnt, hold.pins, hold.valid, hold.dirty, hold.home, hold.log⟩
  obtain ⟨b', hcache, hvalid⟩ := h.cached x hx
  refine ⟨b', ?_⟩
  by_cases hb : b' = b
  · subst hb
    obtain ⟨hdev, hbn⟩ := Bcache.caches_iff.mp hcache
    have hpin := (h.bufs b').pins
    rw [if_pos ⟨hdev, hbn.symm ▸ hx⟩] at hpin
    obtain ⟨hd, hn, hv⟩ := hkeep hpin
    rw [Bcache.set_same, Bcache.caches_iff, Bcache.set_same]
    exact ⟨⟨hd.trans hdev, hn.trans hbn⟩, hv hvalid⟩
  · dsimp only
    rw [Bcache.caches_iff, Bcache.set_ne _ _ hb]
    exact ⟨Bcache.caches_iff.mp hcache, hvalid⟩

/-- A held buffer is valid; it is pinned or has `refcnt` 1. -/
theorem Inv.held (h : s.Inv P) (hl : (s.c.buf b).locked ≠ none) :
    (s.c.buf b).valid = true ∧ (s.c.buf b).refcnt = 1 + s.pins b := by
  have hb := h.bufs b
  refine ⟨hb.valid hl, ?_⟩
  have := hb.refcnt
  rw [if_neg hl] at this
  exact this

variable {x : Nat}

/-- Two buffers of the device with one block are one. -/
theorem Inv.same (h : s.Inv P) {b b' : BufId} (hb : s.c.caches ROOTDEV x b = true)
    (hb' : s.c.caches ROOTDEV x b' = true) : b = b' := by
  obtain ⟨hd, hn⟩ := Bcache.caches_iff.mp hb
  obtain ⟨hd', hn'⟩ := Bcache.caches_iff.mp hb'
  exact h.unique b b' (by rw [hd]; decide) (hd.trans hd'.symm) (hn.trans hn'.symm)

/-- A cache whose buffers have the same blocks as before. -/
def SameBlocks (c c' : Bcache Words) : Prop :=
  ∀ b, (c'.buf b).dev = (c.buf b).dev ∧ (c'.buf b).blockno = (c.buf b).blockno
    ∧ (c'.buf b).valid = (c.buf b).valid

variable {c c' : Bcache Words}

theorem sameBlocks_of {y : Buf Words} (hbuf : ∀ b', b' ≠ b → c'.buf b' = c.buf b') (hat : c'.buf b = y)
    (hy : y.dev = (c.buf b).dev ∧ y.blockno = (c.buf b).blockno ∧ y.valid = (c.buf b).valid) : SameBlocks c c' := by
  intro b'
  by_cases hb : b' = b
  · rw [hb, hat]; exact hy
  · rw [hbuf b' hb]; exact ⟨rfl, rfl, rfl⟩

theorem SameBlocks.unique (h : SameBlocks c c') (hc : c.Unique) : c'.Unique :=
  hc.congr fun b => ⟨(h b).1, (h b).2.1⟩

theorem SameBlocks.cached (h : SameBlocks c c') (hx : ∃ b, c.caches ROOTDEV x b = true ∧ (c.buf b).valid = true) :
    ∃ b, c'.caches ROOTDEV x b = true ∧ (c'.buf b).valid = true := by
  obtain ⟨b, hcache, hvalid⟩ := hx
  obtain ⟨hdev, hbn, hv⟩ := h b
  refine ⟨b, ?_, hv.trans hvalid⟩
  rw [Bcache.caches_iff, hdev, hbn]
  exact Bcache.caches_iff.mp hcache

/-! ## §3. Reading and releasing. -/

/-- What `bread` gives: a buffer that nobody held, locked and valid. -/
structure Got (s s' : FlatSys) (pid : Pid) (dev blockno : Nat) (b : BufId) : Prop where
  free : (s.c.buf b).locked = none
  locked : (s'.c.buf b).locked = some pid
  dev : (s'.c.buf b).dev = dev
  blockno : (s'.c.buf b).blockno = blockno
  clean : s'.dirty b = false
  others : ∀ b', b' ≠ b → s'.c.buf b' = s.c.buf b'
  rest : s' = { s with c := s'.c }

/-- **bread** keeps the invariant. -/
theorem Inv.bread (h : s.Inv P) {dev blockno : Nat} (hread : s.bread pid dev blockno = .ok (s', b)) :
    s'.Inv P ∧ Got s s' pid dev blockno b := by
  obtain ⟨l, hlisted⟩ := h.listed
  unfold FlatSys.bread at hread
  cases hc : s.c.bread s.disk pid dev blockno with
  | error e => rw [hc] at hread; cases hread
  | ok r =>
    obtain ⟨c', b₁⟩ := r
    rw [hc] at hread
    have hr : ({ s with c := c' }, b₁) = (s', b) := Except.ok.inj hread
    obtain ⟨rfl, hb₁⟩ := Prod.mk.inj hr
    obtain rfl : b = b₁ := hb₁.symm
    obtain ⟨y, hset, hfree, hdev, hbn, hvalid, hlock, hcases⟩ := Bcache.bread_cases hlisted hc
    have hold := h.bufs b
    have hclean : s.dirty b = false := by
      cases hd : s.dirty b with
      | false => rfl
      | true => exact absurd hfree (hold.dirty hd)
    have hcnt := hold.refcnt
    rw [if_pos hfree, Nat.zero_add] at hcnt
    -- contents read from the disk are those of the store
    have hdisk : dev = ROOTDEV → ¬ s.inLog blockno → blockno ∉ P →
        s.disk dev blockno = s.store blockno := by
      intro hd hl hP
      rw [hd]
      exact h.home blockno hl hP
    have hok : s.BufOk P y (s.pins b) (s.dirty b) ∧ (s.c.set b y).Unique
        ∧ (s.pins b = 1 → y.dev = (s.c.buf b).dev ∧ y.blockno = (s.c.buf b).blockno) := by
      rcases hcases with ⟨hhit, hycnt, hydata⟩ | ⟨hno, hzero, hycnt, hydata⟩
      · obtain ⟨hbd, hbb⟩ := Bcache.caches_iff.mp hhit
        refine ⟨⟨?_, ?_, fun _ => hvalid, fun hd =>
          Bool.noConfusion (hclean.symm.trans hd), ?_, ?_⟩, ?_, ?_⟩
        · rw [hlock, if_neg (fun he => by cases he), hycnt, hcnt, Nat.add_comm]
        · rw [hdev, hbn, ← hbd, ← hbb]; exact hold.pins
        · intro _ hyd hyl _
          rw [hdev] at hyd
          rw [hbn] at hyl ⊢
          rw [hydata]
          split
          · next hv =>
            have := hold.home hv (hbd.trans hyd) (hbb ▸ hyl) hclean
            rw [hbb] at this
            exact this
          next hv =>
          refine hdisk hyd hyl fun hP => hv ?_
          obtain ⟨b', hcache, hvalid'⟩ := h.cached blockno hP
          rw [hyd] at hhit
          rw [h.same hhit hcache]
          exact hvalid'
        · intro _ hyd hyl
          rw [hdev] at hyd
          rw [hbn] at hyl ⊢
          rw [hydata]
          split
          · next hv =>
            have := hold.log hv (hbd.trans hyd) (hbb ▸ hyl)
            rw [hbb] at this
            exact this
          · rw [hyd]
        · refine h.unique.congr fun b' => ?_
          by_cases hb : b' = b
          · rw [hb, Bcache.set_same, hdev, hbn, hbd, hbb]; exact ⟨rfl, rfl⟩
          · rw [Bcache.set_ne _ _ hb]; exact ⟨rfl, rfl⟩
        · exact fun _ => ⟨hdev.trans hbd.symm, hbn.trans hbb.symm⟩
      · -- a block that is not cached is not pinned
        have hpin : s.pins b = 0 := by omega
        have hP : ¬ (dev = ROOTDEV ∧ blockno ∈ P) := by
          rintro ⟨hd, hm⟩
          obtain ⟨b', hcache, -⟩ := h.cached blockno hm
          rw [← hd, hno b'] at hcache
          cases hcache
        refine ⟨⟨?_, ?_, fun _ => hvalid, fun hd =>
          Bool.noConfusion (hclean.symm.trans hd), ?_, ?_⟩, ?_, ?_⟩
        · rw [hlock, if_neg (fun he => by cases he), hycnt, hpin]
        · rw [hdev, hbn, if_neg hP, hpin]
        · intro _ hyd hyl _
          rw [hdev] at hyd
          rw [hbn] at hyl ⊢
          rw [hydata]
          exact hdisk hyd hyl fun hm => hP ⟨hyd, hm⟩
        · intro _ hyd _
          rw [hdev] at hyd
          rw [hydata, hbn, hyd]
        · exact h.unique.retarget (by rw [hdev, hbn]; exact hno)
        · intro h1
          rw [hpin] at h1
          cases h1
    obtain ⟨hyok, hyu, hykeep⟩ := hok
    have hinv := h.setBuf hyu hyok fun hp => ⟨(hykeep hp).1, (hykeep hp).2, fun _ => hvalid⟩
    rw [update_eq_self, update_eq_self] at hinv
    rw [hset]
    refine ⟨hinv, hfree, ?_, ?_, ?_, hclean, fun b' hb' => Bcache.set_ne _ _ hb', rfl⟩
    · dsimp only; rw [Bcache.set_same]; exact hlock
    · dsimp only; rw [Bcache.set_same]; exact hdev
    · dsimp only; rw [Bcache.set_same]; exact hbn

/-- **brelse** keeps the invariant. -/
theorem Inv.brelse (h : s.Inv P) (hclean : s.dirty b = false)
    (hrel : s.brelse pid b = .ok s') :
    s'.Inv P ∧ (∀ b', b' ≠ b → s'.c.buf b' = s.c.buf b') ∧ s' = { s with c := s'.c } := by
  unfold FlatSys.brelse Bcache.unlock at hrel
  split at hrel
  · next hl =>
    cases hrel
    have hheld : (s.c.buf b).locked ≠ none := by rw [hl]; exact fun he => by cases he
    have hold := h.bufs b
    obtain ⟨l, hlisted⟩ := h.listed
    have hset : (s.c.set b { s.c.buf b with locked := none }).Listed l :=
      ⟨hlisted.ring, hlisted.all⟩
    have hbuf : ∀ b', b' ≠ b →
        ((s.c.set b { s.c.buf b with locked := none }).brelse b).buf b' = s.c.buf b' := by
      intro b' hb
      rw [Bcache.brelse_ne _ hb, Bcache.set_ne _ _ hb]
    have hat : ((s.c.set b { s.c.buf b with locked := none }).brelse b).buf b
        = { s.c.buf b with locked := none, refcnt := (s.c.buf b).refcnt - 1 } := by
      rw [Bcache.brelse_same, Bcache.set_same]
    have hsame := sameBlocks_of hbuf hat ⟨rfl, rfl, rfl⟩
    refine ⟨⟨⟨_, hset.brelse b⟩, hsame.unique h.unique, fun b' => ?_,
      fun x hx => hsame.cached (h.cached x hx), h.home, h.outside⟩, hbuf, rfl⟩
    by_cases hb : b' = b
    · rw [hb]
      rw [hat]
      refine ⟨?_, hold.pins, fun hn => absurd rfl hn, fun hd => ?_, hold.home, hold.log⟩
      · have := (h.held hheld).2
        rw [if_pos rfl]
        dsimp only
        omega
      · exact Bool.noConfusion (hclean.symm.trans hd)
    · have hold' := h.bufs b'
      rw [hbuf b' hb]
      exact ⟨hold'.refcnt, hold'.pins, hold'.valid, hold'.dirty, hold'.home, hold'.log⟩
  · cases hrel

/-! ## §4. Logging and installing. -/

theorem holdsHome.locked (h : s.holdsHome pid b) : (s.c.buf b).locked ≠ none := by
  rw [h.1]
  exact fun he => nomatch he

/-- The invariant sees of the log only where it is. -/
theorem Inv.moveLog (h : s.Inv P) (log : Log) (phase : CommitPhase)
    (hstart : log.start = s.log.start) (hsize : log.size = s.log.size) :
    Inv { s with log := log, phase := phase } P := by
  have hin : ∀ x, inLog { s with log := log, phase := phase } x ↔ s.inLog x := by
    intro x
    unfold inLog
    rw [hstart, hsize]
  refine ⟨h.listed, h.unique, fun b => ?_, h.cached, fun x hx => ?_, fun x hx hi => ?_⟩
  · have hold := h.bufs b
    refine ⟨hold.refcnt, hold.pins, hold.valid, hold.dirty, fun hv hd hl => ?_, fun hv hd hl => ?_⟩
    · exact hold.home hv hd fun hi => hl ((hin _).mpr hi)
    · exact hold.log hv hd ((hin _).mp hl)
  · exact h.home x fun hi => hx ((hin x).mpr hi)
  · exact h.outside x hx ((hin x).mp hi)

/-- Any other buffer of the device has another block. -/
theorem Inv.other (h : s.Inv P) (hdev : (s.c.buf b).dev = ROOTDEV) {b' : BufId} (hb : b' ≠ b)
    (hd : (s.c.buf b').dev = ROOTDEV) : (s.c.buf b').blockno ≠ (s.c.buf b).blockno := by
  intro hx
  exact hb (h.same (Bcache.caches_iff.mpr ⟨hd, hx⟩) (Bcache.caches_iff.mpr ⟨hdev, rfl⟩))

/-- **bpin** by the holder, of a block that had no pin. -/
theorem Inv.bpin (h : s.Inv P) (hheld : s.holdsHome pid b) (hnew : (s.c.buf b).blockno ∉ P) :
    (s.bpin b).Inv (P ++ [(s.c.buf b).blockno]) := by
  obtain ⟨l, hlisted⟩ := h.listed
  have hlocked := hheld.locked
  obtain ⟨-, hdev, hout⟩ := hheld
  have hpin : s.pins b = 0 := by
    rw [(h.bufs b).pins, if_neg fun hc => hnew hc.2]
  have hbuf : ∀ b', b' ≠ b → (s.bpin b).c.buf b' = s.c.buf b' :=
    fun b' hb => Bcache.set_ne _ _ hb
  have hat : (s.bpin b).c.buf b = { s.c.buf b with refcnt := (s.c.buf b).refcnt + 1 } :=
    Bcache.set_same ..
  have hsame := sameBlocks_of hbuf hat ⟨rfl, rfl, rfl⟩
  refine ⟨⟨l, hlisted.ring, hlisted.all⟩, hsame.unique h.unique, fun b' => ?_, fun x hx => ?_,
    fun x hx hP => ?_, fun x hx => ?_⟩
  · have hold := h.bufs b'
    by_cases hb : b' = b
    · subst hb
      rw [hat]
      show BufOk _ _ _ (update s.pins b' (s.pins b' + 1) b') (s.dirty b')
      rw [update_self, hpin]
      refine ⟨?_, ?_, hold.valid, hold.dirty, hold.home, hold.log⟩
      · have := (h.held hlocked).2
        dsimp only
        rw [if_neg hlocked]
        omega
      · rw [if_pos ⟨hdev, List.mem_append_right _ List.mem_cons_self⟩]
    · rw [hbuf b' hb]
      show BufOk _ _ _ (update s.pins b (s.pins b + 1) b') (s.dirty b')
      rw [update_of_ne hb]
      refine ⟨hold.refcnt, ?_, hold.valid, hold.dirty, hold.home, hold.log⟩
      rw [hold.pins]
      by_cases hd : (s.c.buf b').dev = ROOTDEV
      · have hne := h.other hdev hb hd
        simp only [List.mem_append, List.mem_singleton, hne, or_false]
      · rw [if_neg fun hc => hd hc.1, if_neg fun hc => hd hc.1]
  · refine hsame.cached ?_
    rcases List.mem_append.mp hx with hx | hx
    · exact h.cached x hx
    · rw [List.mem_singleton.mp hx]
      exact ⟨b, Bcache.caches_iff.mpr ⟨hdev, rfl⟩, (h.held hlocked).1⟩
  · exact h.home x hx fun hm => hP (List.mem_append_left _ hm)
  · rcases List.mem_append.mp hx with hx | hx
    · exact h.outside x hx
    · rw [List.mem_singleton.mp hx]
      exact hout

/-- The contents of a held buffer become those of the store. -/
def publish (s : FlatSys) (b : BufId) : FlatSys :=
  { s with
    store := update s.store (s.c.buf b).blockno (s.c.buf b).data
    dirty := update s.dirty b false }

theorem Inv.publish (h : s.Inv P) (hdev : (s.c.buf b).dev = ROOTDEV)
    (hmem : (s.c.buf b).blockno ∈ P) : (s.publish b).Inv P := by
  refine ⟨h.listed, h.unique, fun b' => ?_, h.cached, fun x hx hP => ?_, h.outside⟩
  · have hold := h.bufs b'
    unfold FlatSys.publish
    by_cases hb : b' = b
    · subst hb
      dsimp only
      rw [update_self]
      refine ⟨hold.refcnt, hold.pins, hold.valid, fun hd => Bool.noConfusion hd, ?_, hold.log⟩
      intro _ _ _ _
      dsimp only
      rw [update_self]
    · dsimp only
      rw [update_of_ne hb]
      refine ⟨hold.refcnt, hold.pins, hold.valid, hold.dirty, fun hv hd hl hc => ?_, hold.log⟩
      dsimp only
      rw [update_of_ne (h.other hdev hb hd)]
      exact hold.home hv hd hl hc
  · have hne : x ≠ (s.c.buf b).blockno := fun he => hP (he ▸ hmem)
    show s.disk ROOTDEV x = update s.store (s.c.buf b).blockno (s.c.buf b).data x
    rw [update_of_ne hne]
    exact h.home x hx hP

theorem writeDisk_same (s : FlatSys) (hdev : (s.c.buf b).dev = ROOTDEV) (data : Words) :
    s.writeDisk b data ROOTDEV (s.c.buf b).blockno = data := by
  unfold writeDisk
  rw [hdev, update_self, update_self]

theorem writeDisk_ne (s : FlatSys) (hdev : (s.c.buf b).dev = ROOTDEV) (data : Words)
    (hx : x ≠ (s.c.buf b).blockno) : s.writeDisk b data ROOTDEV x = s.disk ROOTDEV x := by
  unfold writeDisk
  rw [hdev, update_self, update_of_ne hx]

/-- **bwrite** of a log block. -/
theorem Inv.bwrite (h : s.Inv P) (hdev : (s.c.buf b).dev = ROOTDEV)
    (hlog : s.inLog (s.c.buf b).blockno) (data : Words) : (s.bwrite b data).Inv P := by
  obtain ⟨l, hlisted⟩ := h.listed
  have hbuf : ∀ b', b' ≠ b → (s.bwrite b data).c.buf b' = s.c.buf b' :=
    fun b' hb => Bcache.set_ne _ _ hb
  have hat : (s.bwrite b data).c.buf b = { s.c.buf b with data := data } := Bcache.set_same ..
  have hsame := sameBlocks_of hbuf hat ⟨rfl, rfl, rfl⟩
  refine ⟨⟨l, hlisted.ring, hlisted.all⟩, hsame.unique h.unique, fun b' => ?_,
    fun x hx => hsame.cached (h.cached x hx), fun x hx hP => ?_, h.outside⟩
  · have hold := h.bufs b'
    by_cases hb : b' = b
    · subst hb
      rw [hat]
      refine ⟨hold.refcnt, hold.pins, hold.valid, hold.dirty, fun _ _ hl => absurd hlog hl, ?_⟩
      intro _ _ _
      exact (s.writeDisk_same hdev data).symm
    · rw [hbuf b' hb]
      refine ⟨hold.refcnt, hold.pins, hold.valid, hold.dirty, hold.home, fun hv hd hl => ?_⟩
      rw [hold.log hv hd hl]
      exact (s.writeDisk_ne hdev data (h.other hdev hb hd)).symm
  · have hne : x ≠ (s.c.buf b).blockno := fun he => hx (he ▸ hlog)
    show s.writeDisk b data ROOTDEV x = s.store x
    rw [s.writeDisk_ne hdev data hne]
    exact h.home x hx hP

/-- **bwrite and bunpin** of the next block to be installed. -/
theorem Inv.install (h : s.Inv (x :: P)) (hx : x ∉ P)
    (hlocked : (s.c.buf b).locked ≠ none) (hdev : (s.c.buf b).dev = ROOTDEV)
    (hbn : (s.c.buf b).blockno = x) {data : Words} (hdata : data = s.store x) : ((s.bwrite b data).bunpin b).Inv P := by
  obtain ⟨l, hlisted⟩ := h.listed
  have hpin : s.pins b = 1 := by
    rw [(h.bufs b).pins, if_pos ⟨hdev, hbn.symm ▸ List.mem_cons_self⟩]
  have hout : ¬ s.inLog x := h.outside x List.mem_cons_self
  have hbuf : ∀ b', b' ≠ b → ((s.bwrite b data).bunpin b).c.buf b' = s.c.buf b' := by
    intro b' hb
    show (Bcache.bunpin (s.setData b data) b).buf b' = _
    unfold Bcache.bunpin setData
    rw [Bcache.set_set, Bcache.set_ne _ _ hb]
  have hat : ((s.bwrite b data).bunpin b).c.buf b
      = { s.c.buf b with data := data, refcnt := (s.c.buf b).refcnt - 1 } := by
    show (Bcache.bunpin (s.setData b data) b).buf b = _
    unfold Bcache.bunpin setData
    rw [Bcache.set_set, Bcache.set_same, Bcache.set_same]
  have hsame := sameBlocks_of hbuf hat ⟨rfl, rfl, rfl⟩
  refine ⟨⟨l, hlisted.ring, hlisted.all⟩, hsame.unique h.unique, fun b' => ?_,
    fun z hz => hsame.cached (h.cached z (List.mem_cons_of_mem x hz)), fun z hz hP => ?_,
    fun z hz => h.outside z (List.mem_cons_of_mem x hz)⟩
  · have hold := h.bufs b'
    by_cases hb : b' = b
    · subst hb
      rw [hat]
      show BufOk _ _ _ (update s.pins b' (s.pins b' - 1) b') (s.dirty b')
      rw [update_self, hpin]
      refine ⟨?_, ?_, hold.valid, hold.dirty, ?_, ?_⟩
      · have := (h.held hlocked).2
        dsimp only
        rw [if_neg hlocked]
        omega
      · rw [if_neg fun hc => hx (hbn ▸ hc.2)]
      · intro _ _ _ _
        rw [hbn]
        exact hdata
      · intro _ _ hl
        exact absurd (hbn ▸ hl) hout
    · rw [hbuf b' hb]
      show BufOk _ _ _ (update s.pins b (s.pins b - 1) b') (s.dirty b')
      rw [update_of_ne hb]
      refine ⟨hold.refcnt, ?_, hold.valid, hold.dirty, hold.home, fun hv hd hl => ?_⟩
      · rw [hold.pins]
        by_cases hd : (s.c.buf b').dev = ROOTDEV
        · have hne := hbn ▸ h.other hdev hb hd
          simp only [List.mem_cons, hne, false_or]
        · rw [if_neg fun hc => hd hc.1, if_neg fun hc => hd hc.1]
      · rw [hold.log hv hd hl]
        exact (s.writeDisk_ne hdev data (h.other hdev hb hd)).symm
  · -- the block just written is home, the others were
    show s.writeDisk b data ROOTDEV z = s.store z
    by_cases hzx : z = x
    · rw [hzx, ← hdata, ← hbn]
      exact s.writeDisk_same hdev data
    · rw [s.writeDisk_ne hdev data (hbn ▸ hzx)]
      exact h.home z hz fun hm => (List.mem_cons.mp hm).elim hzx hP

/-! ## §5. The turns of a commit. -/

variable {s₁ : FlatSys}

/-- Two buffers read one after the other are not the same. -/
theorem Got.ne {s₂ : FlatSys} {y : Nat} {b₁ b₂ : BufId} (h₁ : Got s s₁ pid ROOTDEV x b₁)
    (h₂ : Got s₁ s₂ pid ROOTDEV y b₂) : b₁ ≠ b₂ := by
  rintro rfl
  have hfree := h₂.free
  rw [h₁.locked] at hfree
  cases hfree

/-- What a turn of the commit leaves as it was. -/
structure SameRest (s s' : FlatSys) : Prop where
  log : s'.log = s.log
  phase : s'.phase = s.phase
  store : s'.store = s.store

theorem SameRest.trans {s₂ : FlatSys} (h : SameRest s s₁) (h' : SameRest s₁ s₂) : SameRest s s₂ :=
  ⟨h'.log.trans h.log, h'.phase.trans h.phase, h'.store.trans h.store⟩

theorem Got.sameRest (h : Got s s' pid ROOTDEV x b) : SameRest s s' := by
  rw [h.rest]
  exact ⟨rfl, rfl, rfl⟩

variable {tail : Nat}

/-- **One turn of `write_log`** copies a block of the store into the log. -/
theorem Inv.writeLogTurn (h : s.Inv P) (hx : x ∈ P)
    (hlog : s.inLog (s.log.start + tail + 1)) (hrun : s.writeLogTurn pid tail x = .ok s') :
    s'.Inv P ∧ SameRest s s' ∧ s'.disk ROOTDEV (s.log.start + tail + 1) = s.store x
      ∧ ∀ y, y ≠ s.log.start + tail + 1 → s'.disk ROOTDEV y = s.disk ROOTDEV y := by
  obtain ⟨⟨s₁, dst⟩, h₁, hrun⟩ := bind_ok hrun
  obtain ⟨⟨s₂, src⟩, h₂, hrun⟩ := bind_ok hrun
  obtain ⟨s₃, h₃, hrun⟩ := bind_ok hrun
  obtain ⟨hi₁, g₁⟩ := h.bread h₁
  obtain ⟨hi₂, g₂⟩ := hi₁.bread h₂
  have hrest := g₁.sameRest.trans g₂.sameRest
  have hdst := g₂.others dst (g₁.ne g₂)
  have hdev : (s₂.c.buf dst).dev = ROOTDEV := by rw [hdst]; exact g₁.dev
  have hbn : (s₂.c.buf dst).blockno = s.log.start + tail + 1 := by rw [hdst]; exact g₁.blockno
  -- the block is not in the log area, so its buffer has what the store has
  have hdata : (s₂.c.buf src).data = s.store x := by
    have hheld : (s₂.c.buf src).locked ≠ none := by rw [g₂.locked]; exact fun he => nomatch he
    have hhome := (hi₂.bufs src).home (hi₂.held hheld).1 g₂.dev
      (by rw [g₂.blockno]; exact hi₂.outside x hx) g₂.clean
    rw [hhome, g₂.blockno, hrest.store]
  have hlog₂ : s₂.inLog (s₂.c.buf dst).blockno := by
    unfold inLog
    rw [hbn, hrest.log]
    exact hlog
  have hi₃ := hi₂.bwrite hdev hlog₂ (s₂.c.buf src).data
  obtain ⟨hi₄, -, hrest₃⟩ := hi₃.brelse g₂.clean h₃
  have hclean : s₃.dirty dst = false := by
    rw [hrest₃]
    show s₂.dirty dst = false
    rw [g₂.rest]
    exact g₁.clean
  obtain ⟨hi₅, -, hrest₄⟩ := hi₄.brelse hclean hrun
  have hdisk : s'.disk = s₂.writeDisk dst (s₂.c.buf src).data := by
    rw [hrest₄, hrest₃]
    rfl
  have hsame : SameRest s₂ s' := by
    rw [hrest₄, hrest₃]
    exact ⟨rfl, rfl, rfl⟩
  refine ⟨hi₅, hrest.trans hsame, ?_, fun y hy => ?_⟩
  · rw [hdisk, ← hbn, s₂.writeDisk_same hdev, hdata]
  · rw [hdisk, s₂.writeDisk_ne hdev _ (hbn ▸ hy), g₂.rest, g₁.rest]

/-- **write_head** changes the header block and nothing else on disk. -/
theorem Inv.writeHead (h : s.Inv P) (hlog : s.inLog s.log.start) (hrun : s.writeHead pid = .ok s') :
    s'.Inv P ∧ SameRest s s' ∧ ∀ y, y ≠ s.log.start → s'.disk ROOTDEV y = s.disk ROOTDEV y := by
  obtain ⟨⟨s₁, b⟩, h₁, hrun⟩ := bind_ok hrun
  obtain ⟨hi₁, g₁⟩ := h.bread h₁
  have hlog₁ : s₁.inLog (s₁.c.buf b).blockno := by
    unfold inLog
    rw [g₁.blockno, g₁.sameRest.log]
    exact hlog
  have hi₂ := hi₁.bwrite g₁.dev hlog₁ (write_head s₁.log.block (s₁.c.buf b).data)
  obtain ⟨hi₃, -, hrest⟩ := hi₂.brelse g₁.clean hrun
  have hsame : SameRest s₁ s' := by
    rw [hrest]
    exact ⟨rfl, rfl, rfl⟩
  refine ⟨hi₃, g₁.sameRest.trans hsame, fun y hy => ?_⟩
  rw [hrest]
  show s₁.writeDisk b _ ROOTDEV y = _
  rw [s₁.writeDisk_ne g₁.dev _ (g₁.blockno.symm ▸ hy), g₁.rest]

/-- **One turn of `install_trans`** writes a block home and gives up its pin. -/
theorem Inv.installTurn (h : s.Inv (x :: P)) (hx : x ∉ P)
    (hlog : s.inLog (s.log.start + tail + 1)) (hwritten : s.disk ROOTDEV (s.log.start + tail + 1) = s.store x)
    (hrun : s.installTurn pid tail x = .ok s') :
    s'.Inv P ∧ SameRest s s' ∧ ∀ y, y ≠ x → s'.disk ROOTDEV y = s.disk ROOTDEV y := by
  obtain ⟨⟨s₁, lbuf⟩, h₁, hrun⟩ := bind_ok hrun
  obtain ⟨⟨s₂, dbuf⟩, h₂, hrun⟩ := bind_ok hrun
  obtain ⟨s₃, h₃, hrun⟩ := bind_ok hrun
  obtain ⟨hi₁, g₁⟩ := h.bread h₁
  obtain ⟨hi₂, g₂⟩ := hi₁.bread h₂
  have hrest := g₁.sameRest.trans g₂.sameRest
  have hlb := g₂.others lbuf (g₁.ne g₂)
  -- the log block in the cache is the one on disk
  have hdata : (s₂.c.buf lbuf).data = s₂.store x := by
    have hheld : (s₁.c.buf lbuf).locked ≠ none := by rw [g₁.locked]; exact fun he => nomatch he
    have hlog₁ : s₁.inLog (s₁.c.buf lbuf).blockno := by
      unfold inLog
      rw [g₁.blockno, g₁.sameRest.log]
      exact hlog
    have hcopy := (hi₁.bufs lbuf).log (hi₁.held hheld).1 g₁.dev hlog₁
    rw [hlb, hcopy, g₁.blockno, hrest.store, ← hwritten, g₁.rest]
  have hheld₂ : (s₂.c.buf dbuf).locked ≠ none := by rw [g₂.locked]; exact fun he => nomatch he
  have hi₃ := hi₂.install hx hheld₂ g₂.dev g₂.blockno hdata
  have hclean : s₂.dirty lbuf = false := by
    rw [g₂.rest]
    exact g₁.clean
  obtain ⟨hi₄, -, hrest₃⟩ := hi₃.brelse hclean h₃
  have hclean' : s₃.dirty dbuf = false := by
    rw [hrest₃]
    exact g₂.clean
  obtain ⟨hi₅, -, hrest₄⟩ := hi₄.brelse hclean' hrun
  have hdisk : s'.disk = s₂.writeDisk dbuf (s₂.c.buf lbuf).data := by
    rw [hrest₄, hrest₃]
    rfl
  have hsame : SameRest s₂ s' := by
    rw [hrest₄, hrest₃]
    exact ⟨rfl, rfl, rfl⟩
  refine ⟨hi₅, hrest.trans hsame, fun y hy => ?_⟩
  rw [hdisk, s₂.writeDisk_ne g₂.dev _ (g₂.blockno.symm ▸ hy), g₂.rest, g₁.rest]

/-! ## §6. Whole runs. -/

/-- The first `n` logged blocks are in the log area as the store has them. -/
def Written (s : FlatSys) (n : Nat) : Prop :=
  ∀ i x, i < n → s.log.block[i]? = some x → s.disk ROOTDEV (s.log.start + i + 1) = s.store x

/-- How much of the log is written in each phase. -/
def written (s : FlatSys) : Nat :=
  match s.phase with
  | .writeLog tail => tail
  | .head => s.log.block.length
  | .install _ => s.log.block.length
  | _ => 0

/-- Nothing is in the log: between `lh.n = 0` and the next operation. -/
def done (s : FlatSys) : Prop :=
  s.phase = .clear ∨ s.phase = .cleared ∨ (s.phase = .idle ∧ s.log.outstanding = 0)

/-- The invariant between the steps. -/
structure RunInv (s : FlatSys) : Prop where
  core : s.Inv s.pending
  nodup : s.log.block.Nodup
  size : s.log.block ≠ [] → s.log.block.length < s.log.size
  header : 0 < s.log.size
  busy : s.phase ≠ .idle → s.log.committing = true ∧ s.log.outstanding = 0
  written : s.Written s.written
  done : s.done → s.log.block = []

/-- A step that leaves log, store and disk of the log area as they were. -/
theorem RunInv.frame (h : s.RunInv) (hrest : SameRest s s') (hdisk : s'.disk = s.disk)
    (hcore : s'.Inv s.pending) : s'.RunInv := by
  obtain ⟨hlog, hphase, hstore⟩ := hrest
  have hpend : s'.pending = s.pending := by
    unfold pending
    rw [hlog, hphase]
  have hwr : s'.written = s.written := by
    unfold FlatSys.written
    rw [hlog, hphase]
  refine ⟨hpend ▸ hcore, hlog ▸ h.nodup, ?_, hlog ▸ h.header, ?_, ?_, ?_⟩
  · rw [hlog]; exact h.size
  · rw [hlog, hphase]; exact h.busy
  · unfold Written
    rw [hwr, hlog, hdisk, hstore]
    exact h.written
  · unfold FlatSys.done
    rw [hlog, hphase]
    exact h.done

theorem Quiet.inv {disk : Nat → Nat → Words} (h : Quiet c disk)
    (start : Nat) {size : Nat} (hsize : 0 < size) : (init c disk start size).RunInv := by
  refine ⟨⟨h.listed, h.unique, fun b => ?_, fun x hx => absurd hx List.not_mem_nil,
    fun _ _ _ => rfl, fun x hx => absurd hx List.not_mem_nil⟩, List.nodup_nil,
    fun hne => absurd rfl hne, hsize, fun hne => absurd rfl hne,
    fun i x hi => absurd hi (Nat.not_lt_zero i), fun _ => rfl⟩
  refine ⟨?_, ?_, fun hl => absurd (h.free b) hl, fun hd => Bool.noConfusion hd, ?_, ?_⟩
  · show (c.buf b).refcnt = (if (c.buf b).locked = none then 0 else 1) + 0
    rw [h.refcnt b, if_pos (h.free b)]
  · exact (if_neg fun hc => nomatch hc.2).symm
  · intro hv hd _ _
    show (c.buf b).data = disk ROOTDEV (c.buf b).blockno
    rw [h.data b hv]
    exact congrArg (disk · _) hd
  · intro hv hd _
    show (c.buf b).data = disk ROOTDEV (c.buf b).blockno
    rw [h.data b hv]
    exact congrArg (disk · _) hd

/-- While no commit is going on. -/
theorem RunInv.of_idle (hidle : s.phase = .idle) (hcore : s.Inv s.log.block)
    (hnodup : s.log.block.Nodup) (hsize : s.log.block ≠ [] → s.log.block.length < s.log.size)
    (hheader : 0 < s.log.size) (hempty : s.log.outstanding = 0 → s.log.block = []) : s.RunInv := by
  have hpend : s.pending = s.log.block := by
    unfold pending
    rw [hidle]
  refine ⟨hpend ▸ hcore, hnodup, hsize, hheader, fun hne => absurd hidle hne, ?_, ?_⟩
  · intro i x hi
    unfold FlatSys.written at hi
    rw [hidle] at hi
    exact absurd hi (Nat.not_lt_zero i)
  · rintro (hp | hp | ⟨-, hp⟩)
    · exact nomatch hidle.symm.trans hp
    · exact nomatch hidle.symm.trans hp
    · exact hempty hp

variable (h : s.RunInv)
include h

theorem RunInv.in_phase {phase : CommitPhase} (hphase : s.phase = phase) :
    s.Inv (s.setPhase phase).pending ∧ s.Written (s.setPhase phase).written := by
  rw [← hphase]
  exact ⟨h.core, h.written⟩

/-- While an operation is going on, no commit is. -/
theorem RunInv.idle (hop : 1 ≤ s.log.outstanding) : s.phase = .idle ∧ s.Inv s.log.block := by
  have hidle : s.phase = .idle := by
    by_contra hne
    rw [(h.busy hne).2] at hop
    omega
  exact ⟨hidle, (h.in_phase hidle).1⟩

variable {log : Log}

theorem RunInv.begin_op (hbegin : s.log.begin_op = some log) :
    RunInv { s with log := log } := by
  unfold Log.begin_op at hbegin
  split at hbegin
  · cases hbegin
  next hcommit =>
  split at hbegin
  · cases hbegin
  cases hbegin
  have hidle : s.phase = .idle := by
    by_contra hne
    exact hcommit (h.busy hne).1
  exact .of_idle hidle ((h.in_phase hidle).1.moveLog _ s.phase rfl rfl) h.nodup h.size h.header
    fun hp => absurd hp (Nat.succ_ne_zero _)

theorem RunInv.modify (hheld : s.holdsHome pid b) (data : Words) :
    RunInv { s with c := s.setData b data, dirty := update s.dirty b true } := by
  have hold := h.core.bufs b
  refine h.frame ⟨rfl, rfl, rfl⟩ rfl ?_
  have hok : s.BufOk s.pending { s.c.buf b with data := data } (s.pins b) true :=
    ⟨hold.refcnt, hold.pins, hold.valid, fun _ => hheld.locked,
      fun _ _ _ hd => Bool.noConfusion hd, fun _ _ hl => absurd hl hheld.2.2⟩
  have hsame : SameBlocks s.c (s.c.set b { s.c.buf b with data := data }) :=
    sameBlocks_of (fun b' hb => Bcache.set_ne _ _ hb) (Bcache.set_same ..) ⟨rfl, rfl, rfl⟩
  have hset := h.core.setBuf (hsame.unique h.core.unique) hok fun _ => ⟨rfl, rfl, id⟩
  rw [update_eq_self] at hset
  exact hset

/-- **log_write** pins a block that is new to the log, and only that. -/
theorem RunInv.log_write (hheld : s.holdsHome pid b) {new : Bool}
    (hwrite : s.log.log_write (s.c.buf b).blockno = .ok (log, new)) : (s.logged b log new).RunInv := by
  unfold Log.log_write at hwrite
  split at hwrite
  · cases hwrite
  next hroom =>
  split at hwrite
  · cases hwrite
  next hop =>
  obtain ⟨hidle, hcore⟩ := h.idle (by omega)
  have hpos : s.log.outstanding ≠ 0 := by omega
  split at hwrite
  · -- absorbed
    next hmem =>
    cases hwrite
    exact .of_idle hidle (hcore.publish hheld.2.1 hmem) h.nodup h.size h.header
      fun hp => absurd hp hpos
  next hmem =>
  cases hwrite
  have hat : (s.bpin b).c.buf b = { s.c.buf b with refcnt := (s.c.buf b).refcnt + 1 } :=
    Bcache.set_same ..
  have hdev : ((s.bpin b).c.buf b).dev = ROOTDEV := by rw [hat]; exact hheld.2.1
  have hin : ((s.bpin b).c.buf b).blockno ∈ s.log.block ++ [(s.c.buf b).blockno] := by
    rw [hat]
    exact List.mem_append_right _ List.mem_cons_self
  have hpub := (hcore.bpin hheld hmem).publish hdev hin
  refine .of_idle hidle (hpub.moveLog _ s.phase rfl rfl) ?_ (fun _ => ?_) h.header
    fun hp => absurd hp hpos
  · exact List.nodup_append.mpr ⟨h.nodup, List.nodup_singleton _, fun x hx y hy he =>
      hmem (by rw [← List.mem_singleton.mp hy, ← he]; exact hx)⟩
  · show (s.log.block ++ [(s.c.buf b).blockno]).length < s.log.size
    rw [List.length_append, List.length_singleton]
    omega

theorem RunInv.end_op (hop : 1 ≤ s.log.outstanding) {last : Bool}
    (hend : s.log.end_op = .ok (log, last)) :
    RunInv { s with log := log, phase := if last then firstPhase log else s.phase } := by
  obtain ⟨hidle, hcore⟩ := h.idle hop
  unfold Log.end_op at hend
  dsimp only at hend
  split at hend
  · cases hend
  split at hend
  · next hzero =>
    cases hend
    rw [if_pos rfl]
    unfold firstPhase
    split
    · refine ⟨hcore.moveLog _ _ rfl rfl, h.nodup, h.size, h.header, fun _ => ⟨rfl, hzero⟩,
        fun i x hi => absurd hi (Nat.not_lt_zero i), ?_⟩
      rintro (hp | hp | ⟨hp, -⟩) <;> exact nomatch hp
    · next hn =>
      refine ⟨hcore.moveLog _ _ rfl rfl, h.nodup, h.size, h.header, fun _ => ⟨rfl, hzero⟩,
        fun i x hi => absurd hi (Nat.not_lt_zero i), fun _ => ?_⟩
      exact List.eq_nil_of_length_eq_zero (Nat.eq_zero_of_not_pos hn)
  · next hmore =>
    cases hend
    exact .of_idle hidle (hcore.moveLog _ _ rfl rfl) h.nodup h.size h.header
      fun hp => absurd hp hmore

/-- In `write_log` and `install_trans`, the next log block is in the log area. -/
theorem RunInv.inLog_next {i : Nat} (hi : s.log.block[i]? = some x) : s.inLog (s.log.start + i + 1) := by
  obtain ⟨hlt, -⟩ := List.getElem?_eq_some_iff.mp hi
  have hsize := h.size fun he => by rw [he] at hlt; exact absurd hlt (Nat.not_lt_zero i)
  unfold inLog
  omega

/-- **One turn of a commit**, to its next phase. -/
theorem RunInv.advance (hne : s.phase ≠ .idle)
    (hrest : SameRest s s₁) {phase : CommitPhase} (hcore : s₁.Inv (s.setPhase phase).pending)
    (hwritten : ∀ i y, i < (s.setPhase phase).written → s.log.block[i]? = some y →
      s₁.disk ROOTDEV (s.log.start + i + 1) = s.store y)
    (hdone : phase = .clear ∨ phase = .cleared ∨ phase = .idle → s.log.block = []) : (s₁.setPhase phase).RunInv := by
  have hlog : (s₁.setPhase phase).log = s.log := hrest.log
  have hpend : (s₁.setPhase phase).pending = (s.setPhase phase).pending := by
    unfold pending
    rw [hlog]
    rfl
  have hlen : (s₁.setPhase phase).written = (s.setPhase phase).written := by
    unfold FlatSys.written
    rw [hlog]
    rfl
  have hstore : (s₁.setPhase phase).store = s.store := hrest.store
  refine ⟨?_, ?_, ?_, hlog ▸ h.header, fun _ => ?_, ?_, fun hd => ?_⟩
  · rw [hpend]
    exact hcore.moveLog s₁.log phase rfl rfl
  · rw [hlog]; exact h.nodup
  · rw [hlog]; exact h.size
  · rw [hlog]; exact h.busy hne
  · unfold Written
    rw [hlen, hlog, hstore]
    exact hwritten
  · rw [hlog]
    exact hdone (hd.imp_right (Or.imp_right And.left))

theorem RunInv.writeLog_turn (hphase : s.phase = .writeLog tail)
    (hx : s.log.block[tail]? = some x) (hrun : s.writeLogTurn pid tail x = .ok s₁) :
    (s₁.setPhase (.writeLog (tail + 1))).RunInv := by
  obtain ⟨hcore, hwritten⟩ := h.in_phase hphase
  obtain ⟨hi₁, hrest, hnew, hold⟩ := hcore.writeLogTurn (List.mem_of_getElem? hx) (h.inLog_next hx) hrun
  refine h.advance (by simp [hphase]) hrest hi₁ (fun i y hi hy => ?_) (by simp)
  -- the blocks before `tail` were written already
  have hi : i < tail + 1 := hi
  by_cases hit : i = tail
  · rw [hit] at hy ⊢
    cases hx.symm.trans hy
    exact hnew
  · rw [hold _ (by omega)]
    exact hwritten i y (show i < tail by omega) hy

theorem RunInv.head_turn (hphase : s.phase = .head)
    (hrun : s.writeHead pid = .ok s₁) (hlog : s.inLog s.log.start) : (s₁.setPhase (.install 0)).RunInv := by
  obtain ⟨hcore, hwritten⟩ := h.in_phase hphase
  obtain ⟨hi₁, hrest, hold⟩ := hcore.writeHead hlog hrun
  refine h.advance (by simp [hphase]) hrest hi₁ (fun i y hi hy => ?_) (by simp)
  rw [hold _ (by omega)]
  exact hwritten i y hi hy

theorem RunInv.install_turn (hphase : s.phase = .install tail)
    (hx : s.log.block[tail]? = some x) (hrun : s.installTurn pid tail x = .ok s₁) :
    (s₁.setPhase (.install (tail + 1))).RunInv := by
  obtain ⟨hlt, hget⟩ := List.getElem?_eq_some_iff.mp hx
  have hdrop : s.log.block.drop tail = x :: s.log.block.drop (tail + 1) := by
    rw [List.drop_eq_getElem_cons hlt, hget]
  obtain ⟨hcore, hwritten⟩ := h.in_phase hphase
  have hcore : s.Inv (x :: s.log.block.drop (tail + 1)) := hdrop ▸ hcore
  have hout : ¬ s.inLog x := hcore.outside x List.mem_cons_self
  have hnot : x ∉ s.log.block.drop (tail + 1) := by
    have hnd := h.nodup.sublist (List.drop_sublist tail s.log.block)
    rw [hdrop] at hnd
    exact (List.nodup_cons.mp hnd).1
  obtain ⟨hi₁, hrest, hold⟩ :=
    hcore.installTurn hnot (h.inLog_next hx) (hwritten tail x hlt hx) hrun
  refine h.advance (by simp [hphase]) hrest hi₁ (fun i y hi hy => ?_) (by simp)
  -- a home block is not a block of the log area
  have hne : s.log.start + i + 1 ≠ x := fun he => hout (he ▸ h.inLog_next hy)
  rw [hold _ hne]
  exact hwritten i y hi hy

theorem RunInv.commit (hrun : s.commit pid = .ok s') : s'.RunInv := by
  have hstart : s.inLog s.log.start := by
    have := h.header
    unfold inLog
    omega
  unfold FlatSys.commit at hrun
  split at hrun
  · cases hrun
  · next tail hphase =>
    split at hrun
    · next x hx =>
      obtain ⟨s₁, h₁, hrun⟩ := bind_ok hrun
      cases hrun
      exact h.writeLog_turn hphase hx h₁
    next hend =>
    cases hrun
    have hlen : s.log.block.length ≤ tail := List.getElem?_eq_none_iff.mp hend
    obtain ⟨hcore, hwritten⟩ := h.in_phase hphase
    exact h.advance (by simp [hphase]) ⟨rfl, rfl, rfl⟩ hcore
      (fun i x hi hx => hwritten i x (Nat.lt_of_lt_of_le hi hlen) hx) (by simp)
  · next hphase =>
    obtain ⟨s₁, h₁, hrun⟩ := bind_ok hrun
    cases hrun
    exact h.head_turn hphase h₁ hstart
  · next tail hphase =>
    split at hrun
    · next x hx =>
      obtain ⟨s₁, h₁, hrun⟩ := bind_ok hrun
      cases hrun
      exact h.install_turn hphase hx h₁
    next hend =>
    cases hrun
    -- everything has been installed
    have hlen : s.log.block.length ≤ tail := List.getElem?_eq_none_iff.mp hend
    have hcore : s.Inv [] := List.drop_eq_nil_of_le hlen ▸ (h.in_phase hphase).1
    have hbusy := h.busy fun he => nomatch hphase.symm.trans he
    exact ⟨hcore.moveLog _ _ rfl rfl, List.nodup_nil, fun hne => absurd rfl hne, h.header,
      fun _ => hbusy, fun i x hi => absurd hi (Nat.not_lt_zero i), fun _ => rfl⟩
  · next hphase =>
    obtain ⟨s₁, h₁, hrun⟩ := bind_ok hrun
    cases hrun
    have hnil := h.done (.inl hphase)
    obtain ⟨hi₁, hrest, -⟩ := (h.in_phase hphase).1.writeHead hstart h₁
    exact h.advance (by simp [hphase]) hrest hi₁ (fun i x hi => absurd hi (Nat.not_lt_zero i)) fun _ => hnil
  · next hphase =>
    cases hrun
    have hnil := h.done (.inr (.inl hphase))
    exact .of_idle rfl ((h.in_phase hphase).1.moveLog _ _ rfl rfl) h.nodup h.size h.header fun _ => hnil

theorem RunInv.step {i : FlatStep} (hok : s.releasesLogged i = true) (hst : s.step i = .ok s') : s'.RunInv := by
  cases i with
  | begin_op =>
    simp only [FlatSys.step] at hst
    split at hst
    · next log hbegin =>
      cases hst
      exact h.begin_op hbegin
    · cases hst
  | bread pid dev blockno =>
    obtain ⟨⟨s₁, b⟩, hread, hst⟩ := bind_ok hst
    cases hst
    obtain ⟨hcore, hgot⟩ := h.core.bread hread
    have hrest := hgot.rest
    refine h.frame ?_ (by rw [hrest]) hcore
    rw [hrest]
    exact ⟨rfl, rfl, rfl⟩
  | modify pid b data =>
    obtain ⟨hheld, rfl⟩ := Lib.guard_ok hst
    exact h.modify hheld.1 data
  | log_write pid b =>
    simp only [FlatSys.step] at hst
    split at hst
    · next hheld =>
      obtain ⟨⟨log, new⟩, hwrite, hst⟩ := bind_ok hst
      cases hst
      exact h.log_write hheld hwrite
    · cases hst
  | brelse pid b =>
    obtain ⟨hcore, -, hrest⟩ := h.core.brelse (Bool.not_eq_true' _ ▸ hok) hst
    refine h.frame ?_ (by rw [hrest]) hcore
    rw [hrest]
    exact ⟨rfl, rfl, rfl⟩
  | end_op =>
    simp only [FlatSys.step] at hst
    split at hst
    · next hop =>
      obtain ⟨⟨log, last⟩, hend, hst⟩ := bind_ok hst
      cases hst
      exact h.end_op hop hend
    · cases hst
  | commit pid => exact h.commit hst

omit h

theorem Reachable.inv (h : s.Reachable) : s.RunInv := by
  refine Lib.Reach.invariant ?_ (fun s i s' hs hok hst => hs.step hok hst) h
  rintro s ⟨c, disk, start, size, hquiet, hsize, rfl⟩
  exact hquiet.inv start hsize

theorem quiet_binit (zero : Words) (disk : Nat → Nat → Words) : Quiet (.binit zero) disk where
  listed := ⟨_, Bcache.binit_listed zero⟩
  unique := fun _ _ hne _ _ => absurd rfl hne
  refcnt := fun _ => rfl
  free := fun _ => rfl
  data := fun _ hv => Bool.noConfusion hv

/-! ## §7. The flat store. -/

/-- The flat store: `log_write` stores the contents of the buffer under its
block number, nothing else changes it. -/
def flatStep (s : FlatSys) : FlatStep → Nat → Words
  | .log_write _ b => update s.store (s.c.buf b).blockno (s.c.buf b).data
  | _ => s.store

theorem bread_store {dev blockno : Nat} (hread : s.bread pid dev blockno = .ok (s', b)) : s'.store = s.store := by
  obtain ⟨⟨c, b₁⟩, -, hread⟩ := bind_ok hread
  cases hread
  rfl

theorem brelse_store (hrel : s.brelse pid b = .ok s') : s'.store = s.store := by
  obtain ⟨c, -, hrel⟩ := bind_ok hrel
  cases hrel
  rfl

theorem writeLogTurn_store (hrun : s.writeLogTurn pid tail x = .ok s') : s'.store = s.store := by
  obtain ⟨⟨s₁, toBuf⟩, h₁, hrun⟩ := bind_ok hrun
  obtain ⟨⟨s₂, fromBuf⟩, h₂, hrun⟩ := bind_ok hrun
  obtain ⟨s₃, h₃, hrun⟩ := bind_ok hrun
  rw [brelse_store hrun, brelse_store h₃]
  exact (bread_store h₂).trans (bread_store h₁)

theorem writeHead_store (hrun : s.writeHead pid = .ok s') : s'.store = s.store := by
  obtain ⟨⟨s₁, b⟩, h₁, hrun⟩ := bind_ok hrun
  rw [brelse_store hrun]
  show s₁.store = s.store
  exact bread_store h₁

theorem installTurn_store (hrun : s.installTurn pid tail x = .ok s') : s'.store = s.store := by
  obtain ⟨⟨s₁, lbuf⟩, h₁, hrun⟩ := bind_ok hrun
  obtain ⟨⟨s₂, dbuf⟩, h₂, hrun⟩ := bind_ok hrun
  obtain ⟨s₃, h₃, hrun⟩ := bind_ok hrun
  rw [brelse_store hrun, brelse_store h₃]
  exact (bread_store h₂).trans (bread_store h₁)

theorem commit_store (hrun : s.commit pid = .ok s') : s'.store = s.store := by
  unfold FlatSys.commit at hrun
  split at hrun
  · cases hrun
  · split at hrun
    · obtain ⟨s₁, h₁, hrun⟩ := bind_ok hrun
      cases hrun
      show s₁.store = s.store
      exact writeLogTurn_store h₁
    · cases hrun; rfl
  · obtain ⟨s₁, h₁, hrun⟩ := bind_ok hrun
    cases hrun
    show s₁.store = s.store
    exact writeHead_store h₁
  · split at hrun
    · obtain ⟨s₁, h₁, hrun⟩ := bind_ok hrun
      cases hrun
      show s₁.store = s.store
      exact installTurn_store h₁
    · cases hrun; rfl
  · obtain ⟨s₁, h₁, hrun⟩ := bind_ok hrun
    cases hrun
    show s₁.store = s.store
    exact writeHead_store h₁
  · cases hrun; rfl

theorem logged_store (s : FlatSys) (b : BufId) (log : Log) (new : Bool) : (s.logged b log new).store
      = update s.store (s.c.buf b).blockno (s.c.buf b).data := by
  cases new with
  | false => rfl
  | true =>
    show update s.store ((s.c.bpin b).buf b).blockno ((s.c.bpin b).buf b).data = _
    unfold Bcache.bpin
    rw [Bcache.set_same]

theorem step_store {i : FlatStep} (hst : s.step i = .ok s') : s'.store = s.flatStep i := by
  cases i with
  | begin_op | modify pid b data =>
    simp only [FlatSys.step] at hst
    split at hst
    · cases hst; rfl
    · cases hst
  | bread pid dev blockno =>
    obtain ⟨⟨s₁, b⟩, hread, hst⟩ := bind_ok hst
    cases hst
    exact bread_store hread
  | log_write pid b =>
    simp only [FlatSys.step] at hst
    split at hst
    · obtain ⟨⟨log, new⟩, -, hst⟩ := bind_ok hst
      cases hst
      exact s.logged_store b log new
    · cases hst
  | brelse pid b => exact brelse_store hst
  | end_op =>
    simp only [FlatSys.step] at hst
    split at hst
    · obtain ⟨⟨log, last⟩, -, hst⟩ := bind_ok hst
      cases hst
      rfl
    · cases hst
  | commit pid => exact commit_store hst

/-- **Cache and log are a flat store.**  In every state of every run that logs what it changes
  * a block outside the log area is read as the store has it, and `log_write`
    is the one step that changes the store;
  * no block is in the log twice;
  * a buffer has one pin if its block is logged and not yet installed, none
    otherwise, and such a block is in the cache;
  * after a commit the log is empty and no pin remains. -/
theorem flat_store (h : s.Reachable) :
    (∀ pid x s' b, s.bread pid ROOTDEV x = .ok (s', b) → ¬ s.inLog x →
      (s'.c.buf b).data = s.store x)
    ∧ (∀ i s', s.step i = .ok s' → s'.store = s.flatStep i)
    ∧ s.log.block.Nodup
    ∧ (∀ b, s.pins b = if (s.c.buf b).dev = ROOTDEV ∧ (s.c.buf b).blockno ∈ s.pending then 1 else 0)
    ∧ (∀ x ∈ s.pending, ∃ b, s.c.caches ROOTDEV x b = true ∧ (s.c.buf b).valid = true)
    ∧ (s.done → s.log.block = [] ∧ ∀ b, s.pins b = 0) := by
  have hinv := h.inv
  refine ⟨?_, fun i s' hst => step_store hst, hinv.nodup, fun b => (hinv.core.bufs b).pins,
    hinv.core.cached, fun hdone => ⟨hinv.done hdone, fun b => ?_⟩⟩
  · intro pid x s' b hread hx
    obtain ⟨hcore, hgot⟩ := hinv.core.bread hread
    have hheld : (s'.c.buf b).locked ≠ none := by rw [hgot.locked]; exact fun he => nomatch he
    have hrest := hgot.sameRest
    have hout : ¬ s'.inLog (s'.c.buf b).blockno := by
      unfold inLog
      rw [hgot.blockno, hrest.log]
      exact hx
    rw [(hcore.bufs b).home (hcore.held hheld).1 hgot.dev hout hgot.clean, hgot.blockno,
      hrest.store]
  · -- of an empty log, nothing is pending
    have hnil := hinv.done hdone
    have hpend : s.pending = [] := by
      unfold pending
      split
      · rw [hnil, List.drop_nil]
      · exact hnil
    rw [(hinv.core.bufs b).pins, hpend, if_neg fun hc => absurd hc.2 List.not_mem_nil]

/-- Block 50 is changed twice in one operation, logged, and committed. -/
def absorbRun : List FlatStep :=
  [.begin_op, .bread 1 ROOTDEV 50, .modify 1 0 (fun _ => 5), .log_write 1 0,
   .modify 1 0 (fun _ => 7), .log_write 1 0, .brelse 1 0, .end_op, .commit 1, .commit 1,
   .commit 1, .bread 2 ROOTDEV 60, .commit 1, .commit 1, .commit 1, .commit 1]

/-- An empty cache over a disk of zeros. -/
def bootState : FlatSys := init (.binit fun _ => 0) (fun _ _ _ => 0) 2 LOGSIZE

theorem bootState_start : Start bootState :=
  ⟨_, _, _, _, quiet_binit _ _, show 0 < LOGSIZE by decide, rfl⟩

/-- After the run block 50 is home, with its last contents. -/
theorem flat_store_absorbRun : ∃ s : FlatSys, s.Reachable ∧ s.disk ROOTDEV 50 0 = 7 ∧ s.store 50 0 = 7
      ∧ s.log.block = [] ∧ ∀ b, s.pins b = 0 := by
  have hreach : ∃ s : FlatSys, s.Reachable ∧ decide (s.disk ROOTDEV 50 0 = 7 ∧ s.store 50 0 = 7
      ∧ s.phase = .idle ∧ s.log.outstanding = 0) = true :=
    Lib.Reach.of_reaches absorbRun _ bootState_start (by decide +kernel)
  obtain ⟨s, hs, htest⟩ := hreach
  obtain ⟨hdisk, hstore, hidle, hout⟩ := of_decide_eq_true htest
  obtain ⟨-, -, -, -, -, hdone⟩ := flat_store hs
  obtain ⟨hnil, hpins⟩ := hdone (.inr (.inr ⟨hidle, hout⟩))
  exact ⟨s, hs, hdisk, hstore, hnil, hpins⟩

/-- `writei` changes block 50, its copy from user memory fails half-way, and it releases the buffer. -/
def unloggedRun : List FlatStep := [.begin_op, .bread 1 ROOTDEV 50, .modify 1 0 (fun _ => 5), .brelse 1 0]

/-- **A change that was not logged is read**: without the condition, `bread` gives contents that no `log_write` left. -/
theorem unlogged_read : ∃ s : FlatSys, Lib.Reach Start (fun _ _ => True) step s ∧ ¬ s.inLog 50
      ∧ ∃ s' b, s.bread 2 ROOTDEV 50 = .ok (s', b) ∧ (s'.c.buf b).data ≠ s.store 50 := by
  have hreach : ∃ s : FlatSys, Lib.Reach Start (fun _ _ => True) step s ∧ (decide (¬ s.inLog 50 ∧ s.store 50 0 = 0)
      && (s.bread 2 ROOTDEV 50).toOption.any fun r => (r.1.c.buf r.2).data 0 == 5) = true :=
    Lib.Reach.of_reaches unloggedRun _ bootState_start (by decide +kernel)
  obtain ⟨s, hs, htest⟩ := hreach
  obtain ⟨hstate, hread⟩ := Bool.and_eq_true_iff.mp htest
  obtain ⟨hout, hstore⟩ := of_decide_eq_true hstate
  cases hr : s.bread 2 ROOTDEV 50 with
  | error e =>
    rw [hr] at hread
    cases hread
  | ok r =>
    rw [hr] at hread
    refine ⟨s, hs, hout, r.1, r.2, hr, fun heq => ?_⟩
    have hfive : (r.1.c.buf r.2).data 0 = 5 := beq_iff_eq.mp hread
    rw [heq, hstore] at hfive
    cases hfive

/-- **Where the store is on disk**: a block is home unless it is in the log, what has been copied into the log area is as the
store has it, and after a commit every block is home. -/
theorem store_on_disk (h : s.Reachable) (hx : ¬ s.inLog x) : (x ∉ s.log.block → s.disk ROOTDEV x = s.store x)
    ∧ (∀ i < s.written, s.log.block[i]? = some x → s.disk ROOTDEV (s.log.start + i + 1) = s.store x)
    ∧ (s.done → s.disk ROOTDEV x = s.store x) := by
  have hinv := h.inv
  have hhome : x ∉ s.log.block → s.disk ROOTDEV x = s.store x := by
    refine fun hn => hinv.core.home x hx fun hp => hn ?_
    unfold pending at hp
    split at hp
    · exact List.mem_of_mem_drop hp
    · exact hp
  exact ⟨hhome, fun i hi hb => hinv.written i x hi hb, fun hdone => hhome (by simp [hinv.done hdone])⟩

/-- In the middle of the commit block 50 is in the log area, and not yet home. -/
theorem store_on_disk_absorbRun : ∃ s : FlatSys, s.Reachable ∧ s.store 50 0 = 7 ∧ s.disk ROOTDEV 50 0 = 0
      ∧ s.disk ROOTDEV 3 = s.store 50 ∧ s.disk ROOTDEV 60 = s.store 60 := by
  have hreach : ∃ s : FlatSys, s.Reachable ∧ decide (s.store 50 0 = 7 ∧ s.disk ROOTDEV 50 0 = 0 ∧ ¬ s.inLog 50
      ∧ ¬ s.inLog 60 ∧ s.log.block = [50] ∧ s.written = 1 ∧ s.log.start = 2) = true :=
    Lib.Reach.of_reaches (absorbRun.take 9) _ bootState_start (by decide +kernel)
  obtain ⟨s, hs, htest⟩ := hreach
  obtain ⟨hstore, hdisk, h50, h60, hblock, hwritten, hstart⟩ := of_decide_eq_true htest
  have hlogged := (store_on_disk hs h50).2.1 0 (by omega) (by rw [hblock]; rfl)
  rw [hstart] at hlogged
  exact ⟨s, hs, hstore, hdisk, hlogged, (store_on_disk hs h60).1 (by rw [hblock]; decide)⟩

end FlatSys

end Xv6
