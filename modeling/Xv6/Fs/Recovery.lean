/-
  Xv6.Fs.Recovery — crashes during `commit` and `recover_from_log`
  (`write_log`, `write_head`, `install_trans`, `read_head` of `kernel/log.c`).

  A block write is atomic; what a function does to the disk is the list of
  its writes, and a crash leaves a prefix of it.  A header block is read as
  `struct logheader`: an int `n` and `n` block numbers.

  From the start of a commit on, the disk is in one of three phases:

    * `Before` — no header on disk, home blocks as before the transaction,
    * `Logged` — the header names the blocks and the log holds their contents,
    * `After`  — no header on disk, home blocks with the logged contents.

  Every prefix of the commit, and of every recovery, stays in a phase or moves
  to the next one; a completed recovery leaves `Before` or `After`.

  Main result: `crash_atomicity`.
-/
import Xv6.Fs.Log
import Xv6.Lib.Writes

namespace Xv6

open Function (update update_of_ne update_self)
open Lib (applyWrites applyWrites_frame)

/-! ## §1. Headers. -/

/-- A block, as the array of ints that `struct logheader` makes of it. -/
abbrev Words := Nat → Nat

/-- The blocks of the disk. -/
abbrev Disk := Nat → Words

/-- A write to the disk. -/
abbrev DiskWrite := Nat × Words

/-- `read_head()`: `lh.n` and `lh.block[0 .. n)` -/
def read_head (w : Words) : List Nat := (List.range (w 0)).map fun i => w (i + 1)

/-- `write_head()`: the header block after `hb->n = ..` and the loop over `hb->block[i]` -/
def write_head (block : List Nat) (w : Words) : Words := fun i =>
  if i = 0 then block.length else (block[i - 1]?).getD (w i)

@[simp] theorem read_write_head (block : List Nat) (w : Words) : read_head (write_head block w) = block := by
  refine List.ext_getElem (by simp [read_head, write_head]) ?_
  intro i h₁ h₂
  simp [read_head, write_head, h₂]

/-! ## §2. The writes of commit and recovery. -/

/-- The log area and a transaction's blocks, which lie outside of it. -/
structure Txn where
  start : Nat
  size : Nat
  block : List Nat
  cache : Disk
  header : 0 < size
  /-- nothing has been logged, or a `log_write` has left these blocks -/
  logged : block = [] ∨ ∃ log b log' new, log.size = size ∧ Log.log_write log b = .ok (log', new) ∧ log'.block = block
  outside : ∀ b ∈ block, b < start ∨ start + size ≤ b

/-- `write_log()`, from `log.lh.block[tail]` on -/
def write_log (start : Nat) (cache : Disk) : Nat → List Nat → List DiskWrite
  | _, [] => []
  | tail, b :: bs => (start + tail + 1, cache b) :: write_log start cache (tail + 1) bs

/-- `install_trans()`, from `log.lh.block[tail]` on: each turn reads a log
block from the disk as the turns before have left it. -/
def install_trans (start : Nat) : Disk → Nat → List Nat → List DiskWrite
  | _, _, [] => []
  | d, tail, b :: bs =>
    (b, d (start + tail + 1))
      :: install_trans start (update d b (d (start + tail + 1))) (tail + 1) bs

/-- `install_trans()` and the `write_head()` with `lh.n = 0` after it -/
def installAndClear (start : Nat) (d : Disk) (block : List Nat) : List DiskWrite :=
  let ws := install_trans start d 0 block
  ws ++ [(start, write_head [] (applyWrites d ws start))]

/-- `recover_from_log()` -/
def recover_from_log (start : Nat) (d : Disk) : List DiskWrite :=
  installAndClear start d (read_head (d start))

/-- `commit()` -/
def Txn.commit (t : Txn) (d : Disk) : List DiskWrite :=
  if t.block.length > 0 then
    let ws := write_log t.start t.cache 0 t.block
    let d := applyWrites d ws
    let head := (t.start, write_head t.block (d t.start))
    ws ++ [head] ++ installAndClear t.start (applyWrites d [head]) t.block
  else []

/-- The disk after a recovery that completes. -/
def recovered (start : Nat) (d : Disk) : Disk := applyWrites d (recover_from_log start d)

/-- The disk after a recovery that stops before its write number `k`. -/
def interrupted (start : Nat) (d : Disk) (k : Nat) : Disk :=
  applyWrites d ((recover_from_log start d).take k)

/-! ## §3. What the loops write. -/

namespace Txn

/-- **The test of `log_write`**: a transaction fits into the log area behind the header. -/
theorem fits (t : Txn) : t.block.length < t.size := by
  rcases t.logged with hnil | ⟨log, b, log', new, hsize, hwrite, hblock⟩
  · rw [hnil]
    exact t.header
  · unfold Log.log_write at hwrite
    split_ifs at hwrite with hbig hout hmem
    · cases hwrite
      rw [← hblock]
      omega
    · cases hwrite
      rw [← hblock, List.length_append, List.length_singleton]
      omega

/-- A block of the log area, header included. -/
def inLog (t : Txn) (x : Nat) : Prop := t.start ≤ x ∧ x < t.start + t.size

theorem outside_ne (t : Txn) {b x : Nat} (hb : b ∈ t.block) (hx : t.inLog x) : b ≠ x := by
  rintro rfl
  have := t.outside b hb
  unfold inLog at hx
  omega

end Txn

theorem write_log_target (start : Nat) (cache : Disk) : ∀ (bs : List Nat) (tail : Nat),
    ∀ w ∈ write_log start cache tail bs, start + tail < w.1 ∧ w.1 ≤ start + tail + bs.length := by
  intro bs
  induction bs with
  | nil => intro tail w hw; cases hw
  | cons b bs ih =>
    intro tail w hw
    rcases List.mem_cons.mp hw with rfl | hw
    · simp only [List.length_cons]
      omega
    · have := ih (tail + 1) w hw
      simp only [List.length_cons]
      omega

theorem write_log_length (start : Nat) (cache : Disk) : ∀ (bs : List Nat) (tail : Nat),
    (write_log start cache tail bs).length = bs.length := by
  intro bs
  induction bs with
  | nil => intro tail; rfl
  | cons b bs ih => intro tail; rw [write_log, List.length_cons, ih, List.length_cons]

/-- Block `i` of the log gets the contents of `block[i]`. -/
theorem write_log_contents (start : Nat) (cache : Disk) : ∀ (bs : List Nat) (tail : Nat) (d : Disk)
    (i : Nat) (b : Nat), bs[i]? = some b →
    applyWrites d (write_log start cache tail bs) (start + (tail + i) + 1) = cache b := by
  intro bs
  induction bs with
  | nil => intro tail d i b hb; cases hb
  | cons a bs ih =>
    intro tail d i b hb
    show applyWrites (update d (start + tail + 1) (cache a))
      (write_log start cache (tail + 1) bs) _ = _
    cases i with
    | zero =>
      cases hb
      show applyWrites _ _ (start + tail + 1) = cache a
      rw [applyWrites_frame, update_self]
      -- later turns write further up
      intro w hw
      have := write_log_target start cache bs (tail + 1) w hw
      omega
    | succ i =>
      have := ih (tail + 1) (update d (start + tail + 1) (cache a)) i b hb
      rw [show tail + (i + 1) = tail + 1 + i by omega]
      exact this

theorem install_trans_target (start : Nat) : ∀ (bs : List Nat) (tail : Nat) (d : Disk),
    ∀ w ∈ install_trans start d tail bs, w.1 ∈ bs := by
  intro bs
  induction bs with
  | nil => intro tail d w hw; cases hw
  | cons b bs ih =>
    intro tail d w hw
    rcases List.mem_cons.mp hw with rfl | hw
    · exact List.mem_cons_self
    · exact List.mem_cons_of_mem b (ih _ _ w hw)

/-- Installing blocks outside the log puts their logged contents home. -/
theorem install_trans_contents {start : Nat} {f : Nat → Words} : ∀ (bs : List Nat) (tail : Nat)
    (d : Disk), (∀ b ∈ bs, ∀ i, i < bs.length → b ≠ start + (tail + i) + 1) →
    (∀ i b, bs[i]? = some b → d (start + (tail + i) + 1) = f b) → ∀ b ∈ bs,
    applyWrites d (install_trans start d tail bs) b = f b := by
  intro bs
  induction bs with
  | nil => intro tail d _ _ b hb; cases hb
  | cons a bs ih =>
    intro tail d hout hlog b hb
    have ha : d (start + tail + 1) = f a := hlog 0 a rfl
    show applyWrites (update d a (d (start + tail + 1)))
      (install_trans start (update d a (d (start + tail + 1))) (tail + 1) bs) b = f b
    by_cases hbs : b ∈ bs
    · refine ih (tail + 1) _ ?_ ?_ b hbs
      · intro b' hb' i hi
        rw [show tail + 1 + i = tail + (i + 1) by omega]
        exact hout b' (List.mem_cons_of_mem a hb') (i + 1) (by rw [List.length_cons]; omega)
      -- the write of this turn is not to the log
      intro i b' hb'
      have hi : i < bs.length := (List.getElem?_eq_some_iff.mp hb').1
      have hne := hout a List.mem_cons_self (i + 1) (by rw [List.length_cons]; omega)
      rw [show tail + 1 + i = tail + (i + 1) by omega, update_of_ne (Ne.symm hne)]
      exact hlog (i + 1) b' hb'
    · -- `a` itself, not written again
      have hab : b = a := by
        rcases List.mem_cons.mp hb with h | h
        · exact h
        · exact absurd h hbs
      have hkeep : ∀ w ∈ install_trans start (update d a (d (start + tail + 1)))
          (tail + 1) bs, w.1 ≠ b :=
        fun w hw he => hbs (he ▸ install_trans_target _ _ _ _ w hw)
      rw [applyWrites_frame hkeep, hab, update_self, ha]

/-! ## §4. Phases. -/

namespace Txn

variable (t : Txn) (d₀ : Disk)

/-- Home blocks that the transaction does not write. -/
def Others (d : Disk) : Prop := ∀ x, ¬ t.inLog x → x ∉ t.block → d x = d₀ x

/-- The transaction has not been committed. -/
structure Before (d : Disk) : Prop where
  head : read_head (d t.start) = []
  home : ∀ x, ¬ t.inLog x → d x = d₀ x

/-- It has been committed and is in the log. -/
structure Logged (d : Disk) : Prop where
  head : read_head (d t.start) = t.block
  log : ∀ i b, t.block[i]? = some b → d (t.start + i + 1) = t.cache b
  others : t.Others d₀ d

/-- It has been installed. -/
structure After (d : Disk) : Prop where
  head : read_head (d t.start) = []
  home : ∀ b ∈ t.block, d b = t.cache b
  others : t.Others d₀ d

variable {t d₀} {d : Disk}

theorem start_inLog (t : Txn) : t.inLog t.start := by
  have := t.fits
  unfold inLog
  omega

theorem ne_start {x : Nat} (hx : ¬ t.inLog x) : x ≠ t.start :=
  fun he => hx (he ▸ t.start_inLog)

theorem log_inLog (t : Txn) {i : Nat} (hi : i < t.block.length) : t.inLog (t.start + i + 1) := by
  have := t.fits
  unfold inLog
  omega

/-- A prefix of `install_trans` keeps the log and the other blocks. -/
theorem Logged.install (h : t.Logged d₀ d) {ws : List DiskWrite} (hws : ∀ w ∈ ws, w.1 ∈ t.block) :
    t.Logged d₀ (applyWrites d ws) where
  head := by
    rw [applyWrites_frame fun w hw => t.outside_ne (hws w hw) t.start_inLog]
    exact h.head
  log := fun i b hb => by
    have hi := (List.getElem?_eq_some_iff.mp hb).1
    rw [applyWrites_frame fun w hw => t.outside_ne (hws w hw) (t.log_inLog hi)]
    exact h.log i b hb
  others := fun x hx hn => by
    have hkeep : ∀ w ∈ ws, w.1 ≠ x := fun w hw he => hn (he ▸ hws w hw)
    rw [applyWrites_frame hkeep]
    exact h.others x hx hn

/-- **Install and clear**, stopped anywhere, and completed. -/
theorem Logged.installAndClear (h : t.Logged d₀ d) (k : Nat) :
    t.Logged d₀ (applyWrites d ((Xv6.installAndClear t.start d t.block).take k))
      ∨ t.After d₀ (applyWrites d ((Xv6.installAndClear t.start d t.block).take k)) := by
  have htarget := install_trans_target t.start t.block 0 d
  unfold Xv6.installAndClear
  by_cases hk : k ≤ (install_trans t.start d 0 t.block).length
  · rw [List.take_append_of_le_length hk]
    exact .inl (h.install fun w hw => htarget w (List.mem_of_mem_take hw))
  -- all blocks are home and the header is cleared
  right
  rw [List.take_of_length_le (by rw [List.length_append, List.length_singleton]; omega),
    Lib.applyWrites_append]
  have hinst := h.install htarget
  have hhome : ∀ b ∈ t.block,
      applyWrites d (install_trans t.start d 0 t.block) b = t.cache b := by
    refine install_trans_contents t.block 0 d ?_ ?_
    · intro b hb i hi
      rw [Nat.zero_add]
      exact t.outside_ne hb (t.log_inLog hi)
    · intro i b hb
      rw [Nat.zero_add]
      exact h.log i b hb
  generalize applyWrites d (install_trans t.start d 0 t.block) = d' at hinst hhome ⊢
  show t.After d₀ (update d' t.start (write_head [] (d' t.start)))
  refine ⟨?_, fun b hb => ?_, fun x hx hn => ?_⟩
  · rw [update_self, read_write_head]
  · rw [update_of_ne (t.outside_ne hb t.start_inLog)]
    exact hhome b hb
  · rw [update_of_ne (ne_start hx)]
    exact hinst.others x hx hn

theorem Logged.completed (h : t.Logged d₀ d) : t.After d₀ (applyWrites d (Xv6.installAndClear t.start d t.block)) := by
  have hall := h.installAndClear (Xv6.installAndClear t.start d t.block).length
  rw [List.take_length] at hall
  rcases hall with hl | ha
  · -- the last write clears the header, so this is the phase after only if nothing was logged
    have hclear : read_head (applyWrites d (Xv6.installAndClear t.start d t.block) t.start)
        = [] := by
      unfold Xv6.installAndClear
      rw [Lib.applyWrites_append]
      show read_head (update (_ : Disk) t.start _ t.start) = []
      rw [update_self, read_write_head]
    have hnil : t.block = [] := hl.head.symm.trans hclear
    exact ⟨hclear, fun b hb => absurd hb (by rw [hnil]; exact List.not_mem_nil), hl.others⟩
  · exact ha

/-- With no header on disk, recovery rewrites the empty header. -/
theorem recover_empty (h : read_head (d t.start) = []) (k : Nat) {x : Nat} (hx : x ≠ t.start) :
    applyWrites d ((recover_from_log t.start d).take k) x = d x := by
  refine applyWrites_frame fun w hw => ?_
  have hmem := List.mem_of_mem_take hw
  unfold recover_from_log Xv6.installAndClear at hmem
  rw [h] at hmem
  have hw : w.1 = t.start := by
    rcases List.mem_append.mp hmem with hm | hm
    · cases hm
    · rw [List.mem_singleton.mp hm]
  rw [hw]
  exact Ne.symm hx

theorem recover_head (h : read_head (d t.start) = []) (k : Nat) :
    read_head (applyWrites d ((recover_from_log t.start d).take k) t.start) = [] := by
  unfold recover_from_log Xv6.installAndClear
  rw [h]
  cases k with
  | zero => exact h
  | succ k =>
    rw [List.take_of_length_le (by simp [install_trans])]
    show read_head (update d t.start _ t.start) = []
    rw [update_self, read_write_head]

/-- The three phases. -/
def Phase (t : Txn) (d₀ : Disk) (committed : Prop) (d : Disk) : Prop :=
  (¬ committed ∧ t.Before d₀ d) ∨ (committed ∧ (t.Logged d₀ d ∨ t.After d₀ d))

/-- **Any prefix of a recovery** stays within the phases. -/
theorem Phase.recover {c : Prop} (h : t.Phase d₀ c d) (k : Nat) :
    t.Phase d₀ c (applyWrites d ((recover_from_log t.start d).take k)) := by
  rcases h with ⟨hc, hb⟩ | ⟨hc, hl | ha⟩
  · refine .inl ⟨hc, recover_head hb.head k, fun x hx => ?_⟩
    rw [recover_empty hb.head k (ne_start hx)]
    exact hb.home x hx
  · refine .inr ⟨hc, ?_⟩
    unfold recover_from_log
    rw [hl.head]
    exact hl.installAndClear k
  · refine .inr ⟨hc, .inr ⟨recover_head ha.head k, fun b hb => ?_, fun x hx hn => ?_⟩⟩
    · rw [recover_empty ha.head k (t.outside_ne hb t.start_inLog)]
      exact ha.home b hb
    · rw [recover_empty ha.head k (ne_start hx)]
      exact ha.others x hx hn

/-- **A completed recovery** leaves nothing logged. -/
theorem Phase.recovered {c : Prop} (h : t.Phase d₀ c d) :
    (¬ c ∧ t.Before d₀ (Xv6.recovered t.start d)) ∨ (c ∧ t.After d₀ (Xv6.recovered t.start d)) := by
  have hall := h.recover (recover_from_log t.start d).length
  rw [List.take_length] at hall
  rcases h with ⟨hc, -⟩ | ⟨hc, hl | ha⟩
  · rcases hall with hb | ⟨hc', -⟩
    · exact .inl hb
    · exact absurd hc' hc
  · refine .inr ⟨hc, ?_⟩
    unfold Xv6.recovered recover_from_log
    rw [hl.head]
    exact hl.completed
  rcases hall with ⟨hc', -⟩ | ⟨-, hl' | ha'⟩
  · exact absurd hc hc'
  · -- an empty header stays empty
    have hhead := recover_head ha.head (recover_from_log t.start d).length
    rw [List.take_length] at hhead
    have hnil : t.block = [] := hl'.head.symm.trans hhead
    exact .inr ⟨hc, hhead, fun b hb => absurd hb (by rw [hnil]; exact List.not_mem_nil), hl'.others⟩
  · exact .inr ⟨hc, ha'⟩

/-- **Any prefix of a commit** leaves a phase; the transaction is committed
from the first `write_head` on. -/
theorem commit_phase (t : Txn) (h : read_head (d₀ t.start) = []) (k : Nat) :
    t.Phase d₀ (t.block.length < k) (applyWrites d₀ ((t.commit d₀).take k)) := by
  by_cases hne : t.block.length > 0
  · have hcommit : t.commit d₀ = write_log t.start t.cache 0 t.block
        ++ ([(t.start, write_head t.block
            (applyWrites d₀ (write_log t.start t.cache 0 t.block) t.start))]
          ++ installAndClear t.start (applyWrites (applyWrites d₀
            (write_log t.start t.cache 0 t.block)) [(t.start, write_head t.block
              (applyWrites d₀ (write_log t.start t.cache 0 t.block) t.start))]) t.block) := by
      unfold commit
      rw [if_pos hne]
      simp only [List.append_assoc]
    rw [hcommit]
    have hlen := write_log_length t.start t.cache t.block 0
    have htarget := write_log_target t.start t.cache t.block 0
    have hfits := t.fits
    -- the blocks of the log lie between the header and the end of the log area
    have hlogArea : ∀ ws : List DiskWrite, (∀ w ∈ ws, w ∈ write_log t.start t.cache 0 t.block) →
        read_head (applyWrites d₀ ws t.start) = []
          ∧ ∀ x, ¬ t.inLog x → applyWrites d₀ ws x = d₀ x := by
      intro ws hws
      refine ⟨?_, fun x hx => ?_⟩
      · rw [applyWrites_frame fun w hw => by have := htarget w (hws w hw); omega]
        exact h
      · refine applyWrites_frame fun w hw he => hx ?_
        have := htarget w (hws w hw)
        unfold inLog
        omega
    by_cases hk : k ≤ t.block.length
    · refine .inl ⟨by omega, ?_⟩
      rw [List.take_append_of_le_length (by omega)]
      obtain ⟨hhead, hhome⟩ := hlogArea _ fun w hw => List.mem_of_mem_take hw
      exact ⟨hhead, hhome⟩
    -- the header is on disk
    refine .inr ⟨by omega, ?_⟩
    obtain ⟨j, hj⟩ : ∃ j, k = (write_log t.start t.cache 0 t.block).length + (j + 1) :=
      ⟨k - t.block.length - 1, by omega⟩
    obtain ⟨-, hhome⟩ := hlogArea _ fun w hw => hw
    rw [hj, List.take_length_add_append, Lib.applyWrites_append, List.singleton_append,
      List.take_succ_cons]
    have hlogged : t.Logged d₀ (applyWrites
        (applyWrites d₀ (write_log t.start t.cache 0 t.block)) [(t.start, write_head t.block
          (applyWrites d₀ (write_log t.start t.cache 0 t.block) t.start))]) := by
      refine ⟨?_, fun i b hb => ?_, fun x hx _ => ?_⟩
      · show read_head (update (_ : Disk) t.start _ t.start) = t.block
        rw [update_self, read_write_head]
      · show update (_ : Disk) t.start _ (t.start + i + 1) = _
        rw [update_of_ne (by omega)]
        have := write_log_contents t.start t.cache t.block 0 d₀ i b hb
        rw [Nat.zero_add] at this
        exact this
      · show update (_ : Disk) t.start _ x = _
        rw [update_of_ne (ne_start hx)]
        exact hhome x hx
    exact hlogged.installAndClear j
  · -- an empty transaction writes nothing
    have hnil : t.block = [] := List.length_eq_zero_iff.mp (by omega)
    have hcommit : t.commit d₀ = [] := by
      unfold commit
      rw [if_neg hne]
    rw [hcommit, List.take_nil]
    by_cases hk : t.block.length < k
    · exact .inr ⟨hk, .inr ⟨h, fun b hb => absurd hb (by rw [hnil]; exact List.not_mem_nil), fun x _ _ => rfl⟩⟩
    · exact .inl ⟨hk, h, fun x _ => rfl⟩

/-! ## §5. Crash atomicity. -/

theorem recovered_head (start : Nat) (d : Disk) : read_head (Xv6.recovered start d start) = [] := by
  unfold Xv6.recovered recover_from_log Xv6.installAndClear
  rw [Lib.applyWrites_append]
  show read_head (update (_ : Disk) start _ start) = []
  rw [update_self, read_write_head]

/-- **Crash atomicity.**  Start from any disk after `initlog` (`d₀`), stop the
commit before its write number `k`, stop recovery any number of times
(before its writes `js`), and let one recovery complete.  The home blocks of
the transaction all hold their logged contents if the first `write_head`
was done, and all their old contents if not; no other block outside the log
has changed; the header is empty. -/
theorem crash_atomicity (t : Txn) (d : Disk) (k : Nat) (js : List Nat) : let d₀ := Xv6.recovered t.start d
    let d₁ := applyWrites d₀ ((t.commit d₀).take k)
    let d₂ := js.foldl (interrupted t.start) d₁
    let d₃ := Xv6.recovered t.start d₂
    (t.block.length < k → ∀ b ∈ t.block, d₃ b = t.cache b)
      ∧ (¬ t.block.length < k → ∀ b ∈ t.block, d₃ b = d₀ b)
      ∧ (∀ x, ¬ t.inLog x → x ∉ t.block → d₃ x = d₀ x)
      ∧ read_head (d₃ t.start) = [] := by
  intro d₀ d₁ d₂ d₃
  have hphase : t.Phase d₀ (t.block.length < k) d₂ := by
    have hfold : ∀ (js : List Nat) (d : Disk), t.Phase d₀ (t.block.length < k) d →
        t.Phase d₀ (t.block.length < k) (js.foldl (interrupted t.start) d) := by
      intro js
      induction js with
      | nil => exact fun d h => h
      | cons j js ih => exact fun d h => ih _ (h.recover j)
    exact hfold js d₁ (t.commit_phase (recovered_head t.start d) k)
  have hblock : ∀ b ∈ t.block, ¬ t.inLog b := fun b hb hin => t.outside_ne hb hin rfl
  rcases hphase.recovered with ⟨hc, hb⟩ | ⟨hc, ha⟩
  · exact ⟨fun hk => absurd hk hc, fun _ b hmem => hb.home b (hblock b hmem),
      fun x hx _ => hb.home x hx, hb.head⟩
  · exact ⟨fun _ => ha.home, fun hk => absurd hc hk, ha.others, ha.head⟩

/-- Blocks 50 and 60, with a log of 30 blocks at 2. -/
def fiftySixty : Txn where
  start := 2
  size := LOGSIZE
  block := [50, 60]
  cache := fun b _ => b
  header := by decide
  logged := .inr ⟨⟨2, LOGSIZE, 1, false, [50]⟩, 60, _, _, rfl, rfl, rfl⟩
  outside := by decide

/-- A crash between the two installs, and one in the recovery: both blocks are new. -/
theorem crash_atomicity_fiftySixty : let d₀ := Xv6.recovered 2 fun _ _ => 0
    let d₁ := applyWrites d₀ ((fiftySixty.commit d₀).take 4);
    Xv6.recovered 2 (interrupted 2 d₁ 1) 50 = (fun _ => 50) ∧ Xv6.recovered 2 (interrupted 2 d₁ 1) 60 = (fun _ => 60) := by
  obtain ⟨hnew, -⟩ := crash_atomicity fiftySixty (fun _ _ => 0) 4 [1]
  exact ⟨hnew (by decide) 50 (by decide), hnew (by decide) 60 (by decide)⟩

end Txn

end Xv6
