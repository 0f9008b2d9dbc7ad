/-
  Xv6.Fs.Bio — the buffer cache (`kernel/bio.c`, with the sleep locks of
  `kernel/sleeplock.c`).

  The buffers hang on a circular list through `bcache.head`, most recently
  used first.  `bget` and `brelse` each work on the list in one critical
  section of `bcache.lock`; what a process does in between, under the
  buffer's sleep lock, is interleaved with the sections of the others.

  Main results:
    * `bget_hit`, `bget_miss` — which buffer `bget` takes,
    * `bcache_structure` — the list, the uniqueness of cached blocks, the
      meaning of `refcnt` and the choice of a victim, after every
      interleaving.
-/
import Xv6.Param
import Xv6.Lib.Runs
import Xv6.Lib.Links

namespace Xv6

open Function (update update_eq_self update_of_ne update_self)

/-! ## §1. Buffers and the code of `bio.c`. -/

/-- blocks that one operation writes, at most -/
def MAXOPBLOCKS : Nat := 10

/-- the size of the cache -/
def NBUF : Nat := MAXOPBLOCKS * 3

/-- An index of `bcache.buf`. -/
abbrev BufId := Fin NBUF

instance : NeZero NBUF := ⟨by decide⟩

/-- a process, as a sleep lock records it -/
abbrev Pid := Nat

/-- `struct buf`; `locked` is the sleep lock with its owner. -/
structure Buf (Block : Type) where
  valid : Bool
  dev : Nat
  blockno : Nat
  locked : Option Pid
  refcnt : Nat
  data : Block

/-- `bcache`; a node of the list is a buffer or `&bcache.head`. -/
structure Bcache (Block : Type) where
  links : Lib.Links (Option BufId)
  buf : BufId → Buf Block

/-- Why a step of the file system does not happen. -/
inductive FsFault where
  /-- the step is not enabled -/
  | disabled
  | panic (msg : String)
  deriving DecidableEq, Repr

/-- What a call returns. -/
abbrev FsResult := Except FsFault

variable {Block : Type}

namespace Bcache

/-- A buffer changes. -/
def set (c : Bcache Block) (b : BufId) (x : Buf Block) : Bcache Block :=
  { c with buf := update c.buf b x }

/-- The test `b->dev == dev && b->blockno == blockno`. -/
def caches (c : Bcache Block) (dev blockno : Nat) (b : BufId) : Bool :=
  (c.buf b).dev = dev ∧ (c.buf b).blockno = blockno

/-- The test `b->refcnt == 0`. -/
def unused (c : Bcache Block) (b : BufId) : Bool := (c.buf b).refcnt = 0

/-- `binit()`, with buffers that hold `zero` -/
def binit (zero : Block) : Bcache Block where
  links := (List.finRange NBUF).foldl (fun d b => d.insert none (some b))
    ⟨fun _ => none, fun _ => none⟩
  buf := fun _ => ⟨false, 0, 0, none, 0, zero⟩

/-- `for(b = start; b != &bcache.head; b = b->next) if(test(b)) ..`; no walk
visits more than NBUF buffers and the head. -/
def scan (walk : Option BufId → Option BufId) (test : BufId → Bool) : Option BufId :=
  (Lib.Links.find walk none (fun n => n.any test) (NBUF + 1) (walk none)).join

/-- `bget(dev, blockno)` up to its `release(&bcache.lock)`. -/
def bget (c : Bcache Block) (dev blockno : Nat) : FsResult (Bcache Block × BufId) :=
  match scan c.links.next (c.caches dev blockno) with
  | some b => .ok (c.set b { c.buf b with refcnt := (c.buf b).refcnt + 1 }, b)
  | none =>
    match scan c.links.prev c.unused with
    | some b =>
      .ok (c.set b { c.buf b with dev := dev, blockno := blockno, valid := false, refcnt := 1 }, b)
    | none => .error (.panic "bget: no buffers")

/-- `acquiresleep(&b->lock)` once the lock is free -/
def acquiresleep (c : Bcache Block) (pid : Pid) (b : BufId) : FsResult (Bcache Block) :=
  if (c.buf b).locked = none then .ok (c.set b { c.buf b with locked := some pid })
  else .error .disabled

/-- The end of `bread`: read the block if the buffer does not hold it yet. -/
def fill (c : Bcache Block) (disk : Nat → Nat → Block) (b : BufId) : Bcache Block :=
  if (c.buf b).valid then c
  else c.set b { c.buf b with data := disk (c.buf b).dev (c.buf b).blockno, valid := true }

/-- `brelse(b)` up to the return of `releasesleep` -/
def unlock (c : Bcache Block) (pid : Pid) (b : BufId) : FsResult (Bcache Block) :=
  if (c.buf b).locked = some pid then .ok (c.set b { c.buf b with locked := none })
  else .error (.panic "brelse")

/-- The critical section of `bcache.lock` in `brelse(b)`. -/
def brelse (c : Bcache Block) (b : BufId) : Bcache Block :=
  let c := c.set b { c.buf b with refcnt := (c.buf b).refcnt - 1 }
  if (c.buf b).refcnt = 0 then
    { c with links := (c.links.remove (some b)).insert none (some b) }
  else c

/-- `bread(dev, blockno)` without interruption -/
def bread (c : Bcache Block) (disk : Nat → Nat → Block) (pid : Pid) (dev blockno : Nat) :
    FsResult (Bcache Block × BufId) := do
  let (c, b) ← c.bget dev blockno
  let c ← c.acquiresleep pid b
  .ok (c.fill disk b, b)

/-- `bpin(b)` -/
def bpin (c : Bcache Block) (b : BufId) : Bcache Block :=
  c.set b { c.buf b with refcnt := (c.buf b).refcnt + 1 }

/-- `bunpin(b)` -/
def bunpin (c : Bcache Block) (b : BufId) : Bcache Block :=
  c.set b { c.buf b with refcnt := (c.buf b).refcnt - 1 }

/-! ## §2. The list and the search. -/

/-- The list runs through every buffer once, `l` front first. -/
structure Listed (c : Bcache Block) (l : List BufId) : Prop where
  ring : c.links.Ring none (l.map some)
  all : ∀ b, b ∈ l

/-- No block of a device is cached twice. -/
def Unique (c : Bcache Block) : Prop :=
  ∀ b b', (c.buf b).dev ≠ 0 → (c.buf b).dev = (c.buf b').dev →
    (c.buf b).blockno = (c.buf b').blockno → b = b'

variable {c : Bcache Block} {l : List BufId} {b : BufId} {dev blockno : Nat}

@[simp] theorem set_same (c : Bcache Block) (b : BufId) (x : Buf Block) : (c.set b x).buf b = x := update_self ..

theorem set_ne (c : Bcache Block) (x : Buf Block) {b b' : BufId} (h : b' ≠ b) : (c.set b x).buf b' = c.buf b' := update_of_ne h ..

@[simp] theorem set_set (c : Bcache Block) (b : BufId) (x y : Buf Block) : (c.set b x).set b y = c.set b y := by
  simp [set]

variable (h : c.Listed l)
include h

theorem Listed.nodup : l.Nodup :=
  List.Nodup.of_map some (List.nodup_cons.mp h.ring.nodup).2

theorem Listed.length : l.length = NBUF := by
  have huniv : l.toFinset = Finset.univ := Finset.eq_univ_of_forall fun b =>
    List.mem_toFinset.mpr (h.all b)
  rw [← List.toFinset_card_of_nodup h.nodup, huniv, Finset.card_univ, Fintype.card_fin]

omit h in
theorem find_map_some (l : List BufId) (test : BufId → Bool) :
    ((l.map some).find? (fun n => n.any test)).join = l.find? test := by
  rw [List.find?_map]
  show (Option.map some (l.find? test)).join = _
  cases l.find? test <;> rfl

theorem scan_next (test : BufId → Bool) : scan c.links.next test = l.find? test := by
  unfold scan
  rw [h.ring.find_next _ (by rw [List.length_map, h.length]), find_map_some]

theorem scan_prev (test : BufId → Bool) : scan c.links.prev test = l.reverse.find? test := by
  unfold scan
  rw [h.ring.find_prev _ (by rw [List.length_map, h.length]), ← List.map_reverse, find_map_some]

omit h

theorem caches_iff : c.caches dev blockno b = true ↔ (c.buf b).dev = dev ∧ (c.buf b).blockno = blockno := by
  unfold caches
  rw [decide_eq_true_eq]

theorem unused_iff : c.unused b = true ↔ (c.buf b).refcnt = 0 := by
  unfold unused
  rw [decide_eq_true_eq]

include h

/-- **A hit**: the cached block is found, wherever it is in the list. -/
theorem bget_hit (hex : ∃ b, c.caches dev blockno b = true) :
    ∃ b, c.caches dev blockno b = true
      ∧ c.bget dev blockno = .ok (c.set b { c.buf b with refcnt := (c.buf b).refcnt + 1 }, b) := by
  obtain ⟨b₀, hb₀⟩ := hex
  cases hfind : l.find? (c.caches dev blockno) with
  | none => exact absurd hb₀ (List.find?_eq_none.mp hfind b₀ (h.all b₀))
  | some b =>
    refine ⟨b, List.find?_some hfind, ?_⟩
    unfold bget
    rw [scan_next h, hfind]

/-- **A miss**: the victim is the last unused buffer of the list. -/
theorem bget_miss (hno : ∀ b, c.caches dev blockno b = false) :
    c.bget dev blockno = match l.reverse.find? c.unused with
      | some b => .ok (c.set b
          { c.buf b with dev := dev, blockno := blockno, valid := false, refcnt := 1 }, b)
      | none => .error (.panic "bget: no buffers") := by
  have hfind : l.find? (c.caches dev blockno) = none :=
    List.find?_eq_none.mpr fun b _ => by rw [hno b]; exact Bool.false_ne_true
  unfold bget
  rw [scan_next h, hfind, scan_prev h]

variable {c' : Bcache Block}

/-- `bget` either hits, or misses and retargets an unused buffer. -/
theorem bget_cases (hget : c.bget dev blockno = .ok (c', b)) :
    (c.caches dev blockno b = true
      ∧ c' = c.set b { c.buf b with refcnt := (c.buf b).refcnt + 1 })
    ∨ ((∀ b, c.caches dev blockno b = false) ∧ l.reverse.find? c.unused = some b
      ∧ c' = c.set b
          { c.buf b with dev := dev, blockno := blockno, valid := false, refcnt := 1 }) := by
  by_cases hex : ∃ b, c.caches dev blockno b = true
  · obtain ⟨b', hb', hrun⟩ := bget_hit h hex
    rw [hrun] at hget
    cases hget
    exact Or.inl ⟨hb', rfl⟩
  have hno : ∀ b, c.caches dev blockno b = false := by
    intro b
    cases hc : c.caches dev blockno b with
    | false => rfl
    | true => exact absurd ⟨b, hc⟩ hex
  rw [bget_miss h hno] at hget
  split at hget
  · next b' hfind =>
    cases hget
    exact Or.inr ⟨hno, hfind, rfl⟩
  · cases hget

omit h in
theorem some_notMem {l : List BufId} (hb : b ∉ l) : some b ∉ none :: l.map some := by
  simp [hb]

/-- What `bread` leaves in the buffer it returns. -/
theorem bread_cases {disk : Nat → Nat → Block} {pid : Pid}
    (hread : c.bread disk pid dev blockno = .ok (c', b)) :
    ∃ y : Buf Block, c' = c.set b y ∧ (c.buf b).locked = none
      ∧ y.dev = dev ∧ y.blockno = blockno ∧ y.valid = true ∧ y.locked = some pid
      ∧ ((c.caches dev blockno b = true ∧ y.refcnt = (c.buf b).refcnt + 1
          ∧ y.data = if (c.buf b).valid then (c.buf b).data else disk dev blockno)
        ∨ ((∀ b, c.caches dev blockno b = false) ∧ (c.buf b).refcnt = 0 ∧ y.refcnt = 1
          ∧ y.data = disk dev blockno)) := by
  unfold bread at hread
  cases hget : c.bget dev blockno with
  | error e => rw [hget] at hread; cases hread
  | ok r =>
    obtain ⟨c₁, b₁⟩ := r
    rw [hget] at hread
    have hrun : (c₁.acquiresleep pid b₁).bind (fun c => .ok (c.fill disk b₁, b₁)) = .ok (c', b) :=
      hread
    cases hacq : c₁.acquiresleep pid b₁ with
    | error e => rw [hacq] at hrun; cases hrun
    | ok c₂ =>
      rw [hacq] at hrun
      have hrun : (c₂.fill disk b₁, b₁) = (c', b) := Except.ok.inj hrun
      injection hrun with hc hb
      subst hb
      obtain ⟨hfree, rfl⟩ := Lib.guard_ok hacq
      rcases bget_cases h hget with ⟨hhit, rfl⟩ | ⟨hno, hfind, rfl⟩
      · -- a hit may still have to be filled
        obtain ⟨hdev, hbn⟩ := caches_iff.mp hhit
        rw [set_same] at hfree
        unfold fill at hc
        rw [set_same, set_set] at hc
        split at hc
        · next hv =>
          refine ⟨_, hc.symm, hfree, ?_, ?_, ?_, rfl, .inl ⟨hhit, ?_, ?_⟩⟩
          · rw [set_same]; exact hdev
          · rw [set_same]; exact hbn
          · exact hv
          · rw [set_same]
          · rw [set_same, if_pos (by rw [set_same] at hv; exact hv)]
        next hv =>
        rw [set_set] at hc
        refine ⟨_, hc.symm, hfree, ?_, ?_, rfl, rfl, .inl ⟨hhit, ?_, ?_⟩⟩
        · rw [set_same]; exact hdev
        · rw [set_same]; exact hbn
        · rw [set_same]
        · rw [set_same] at hv ⊢
          rw [if_neg hv]
          rw [hdev, hbn]
      · rw [set_same] at hfree
        unfold fill at hc
        rw [set_same, set_set] at hc
        rw [if_neg (by rw [set_same]; exact Bool.false_ne_true), set_set] at hc
        refine ⟨_, hc.symm, hfree, ?_, ?_, rfl, rfl, .inr ⟨hno, ?_, ?_, ?_⟩⟩
        · rw [set_same]
        · rw [set_same]
        · exact unused_iff.mp (List.find?_some hfind)
        · rw [set_same]
        · rw [set_same]

/-- Moving a buffer to the front of the list. -/
theorem Listed.toFront (b : BufId)
    (hlinks : c'.links = (c.links.remove (some b)).insert none (some b)) : c'.Listed (b :: l.erase b) := by
  obtain ⟨l₁, l₂, hnot, hl, herase⟩ := List.exists_erase_eq (h.all b)
  have hring := h.ring
  have hnd := h.nodup
  rw [hl, List.map_append, List.map_cons] at hring
  rw [hl] at hnd
  have hrem := hring.remove
  rw [← List.map_append] at hrem
  have hb : b ∉ l₁ ++ l₂ := by
    have hperm : (l₁ ++ b :: l₂).Perm (b :: (l₁ ++ l₂)) := List.perm_middle
    exact (List.nodup_cons.mp (hperm.nodup_iff.mp hnd)).1
  constructor
  · rw [hlinks, herase, List.map_cons]
    exact hrem.insert (some_notMem hb)
  · intro x
    by_cases hx : x = b
    · rw [hx]; exact List.mem_cons_self
    · exact List.mem_cons_of_mem b ((List.mem_erase_of_ne hx).mpr (h.all x))

omit h

theorem brelse_same (c : Bcache Block) (b : BufId) :
    (c.brelse b).buf b = { c.buf b with refcnt := (c.buf b).refcnt - 1 } := by
  unfold brelse
  dsimp only
  split
  · exact set_same ..
  · exact set_same ..

theorem brelse_ne (c : Bcache Block) {b b' : BufId} (h : b' ≠ b) : (c.brelse b).buf b' = c.buf b' := by
  unfold brelse
  dsimp only
  split
  · exact set_ne _ _ h
  · exact set_ne _ _ h

/-- The last user moves the buffer to the front. -/
theorem Listed.brelse (h : c.Listed l) (b : BufId) :
    (c.brelse b).Listed (if (c.buf b).refcnt - 1 = 0 then b :: l.erase b else l) := by
  by_cases hz : (c.buf b).refcnt - 1 = 0
  · rw [if_pos hz]
    refine h.toFront b ?_
    unfold Bcache.brelse
    dsimp only
    rw [set_same, if_pos hz]
    rfl
  rw [if_neg hz]
  have hlinks : (c.brelse b).links = c.links := by
    unfold Bcache.brelse
    dsimp only
    rw [set_same, if_neg hz]
    rfl
  exact ⟨by rw [hlinks]; exact h.ring, h.all⟩

/-- Uniqueness depends only on which block each buffer has. -/
theorem Unique.congr (h : c.Unique)
    (hsame : ∀ b, (c'.buf b).dev = (c.buf b).dev ∧ (c'.buf b).blockno = (c.buf b).blockno) : c'.Unique := by
  intro b₁ b₂ hne hdev hno
  rw [(hsame b₁).1] at hne hdev
  rw [(hsame b₂).1] at hdev
  rw [(hsame b₁).2, (hsame b₂).2] at hno
  exact h b₁ b₂ hne hdev hno

/-- A buffer may take a block that no buffer has. -/
theorem Unique.retarget (h : c.Unique) {y : Buf Block}
    (hno : ∀ b', c.caches y.dev y.blockno b' = false) : (c.set b y).Unique := by
  have hother : ∀ b', ¬ ((c.buf b').dev = y.dev ∧ (c.buf b').blockno = y.blockno) := by
    intro b' hc
    have := caches_iff.mpr hc
    rw [hno b'] at this
    cases this
  intro b₁ b₂ hne hdev hbn
  by_cases h₁ : b₁ = b
  · by_cases h₂ : b₂ = b
    · rw [h₁, h₂]
    · rw [h₁, set_same, set_ne _ _ h₂] at hdev hbn
      exact absurd ⟨hdev.symm, hbn.symm⟩ (hother b₂)
  by_cases h₂ : b₂ = b
  · rw [h₂, set_same, set_ne _ _ h₁] at hdev hbn
    exact absurd ⟨hdev, hbn⟩ (hother b₁)
  · rw [set_ne _ _ h₁] at hne hdev hbn
    rw [set_ne _ _ h₂] at hdev hbn
    exact h b₁ b₂ hne hdev hbn

/-- `binit` links the buffers up, the last one in front. -/
theorem binit_listed (zero : Block) : (binit zero).Listed (List.finRange NBUF).reverse := by
  have hfold : ∀ (bs : List BufId) (d : Lib.Links (Option BufId)) (l : List BufId),
      d.Ring none (l.map some) → (bs.reverse ++ l).Nodup →
      (bs.foldl (fun d b => d.insert none (some b)) d).Ring none ((bs.reverse ++ l).map some) := by
    intro bs
    induction bs with
    | nil => exact fun d l hr _ => hr
    | cons b bs ih =>
      intro d l hr hnd
      rw [List.reverse_cons, List.append_assoc] at hnd ⊢
      have hb : b ∉ l := (List.nodup_cons.mp (List.nodup_append.mp hnd).2.1).1
      exact ih _ (b :: l) (hr.insert (some_notMem hb)) hnd
  have hrun := hfold (List.finRange NBUF) ⟨fun _ => none, fun _ => none⟩ []
    (Lib.Links.Ring.empty rfl rfl)
    (by rw [List.append_nil]; exact List.nodup_reverse.mpr (List.nodup_finRange NBUF))
  exact ⟨hrun, fun b => List.mem_reverse.mpr (List.mem_finRange b)⟩

end Bcache

/-! ## §3. Processes and their critical sections. -/

/-- The cache with the disk behind it and the processes that use it.  A
process that `bget` has counted waits for the sleep lock, holds it, or has
given it back and is about to be uncounted.  `stamp b` is the time of the
last `brelse` of `b`. -/
structure BioSys (Block : Type) where
  c : Bcache Block
  disk : Nat → Nat → Block
  waiting : BufId → Multiset Pid
  leaving : BufId → Multiset Pid
  pins : BufId → Nat
  clock : Nat
  stamp : BufId → Nat

/-- The steps of the processes that use the cache. -/
inductive BioStep (Block : Type) where
  | bget (pid : Pid) (dev blockno : Nat)
  | acquiresleep (pid : Pid) (b : BufId)
  /-- the end of `bread` -/
  | fill (pid : Pid) (b : BufId)
  /-- the holder writes into `b->data` -/
  | store (pid : Pid) (b : BufId) (data : Block)
  | bwrite (pid : Pid) (b : BufId)
  | unlock (pid : Pid) (b : BufId)
  | brelse (pid : Pid) (b : BufId)
  | bpin (b : BufId)
  /-- as in `install_trans`, by a process that holds the buffer -/
  | bunpin (pid : Pid) (b : BufId)

namespace BioSys

/-- The buffer is held by the process. -/
def holds (s : BioSys Block) (pid : Pid) (b : BufId) : Prop := (s.c.buf b).locked = some pid

instance (s : BioSys Block) (pid : Pid) (b : BufId) : Decidable (s.holds pid b) := by
  unfold holds
  infer_instance

/-- `virtio_disk_rw(b, 1)` -/
def writeDisk (s : BioSys Block) (b : BufId) : Nat → Nat → Block :=
  update s.disk (s.c.buf b).dev
    (update (s.disk (s.c.buf b).dev) (s.c.buf b).blockno (s.c.buf b).data)

/-- What a step does. -/
def step (s : BioSys Block) : BioStep Block → FsResult (BioSys Block)
  | .bget pid dev blockno => do
      let (c, b) ← s.c.bget dev blockno
      .ok { s with c := c, waiting := update s.waiting b (pid ::ₘ s.waiting b) }
  | .acquiresleep pid b =>
    if pid ∈ s.waiting b then do
      let c ← s.c.acquiresleep pid b
      .ok { s with c := c, waiting := update s.waiting b ((s.waiting b).erase pid) }
    else .error .disabled
  | .fill pid b =>
    if s.holds pid b then .ok { s with c := s.c.fill s.disk b } else .error .disabled
  | .store pid b data =>
    if s.holds pid b then .ok { s with c := s.c.set b { s.c.buf b with data := data } }
    else .error .disabled
  | .bwrite pid b =>
    if s.holds pid b then .ok { s with disk := s.writeDisk b } else .error (.panic "bwrite")
  | .unlock pid b => do
      let c ← s.c.unlock pid b
      .ok { s with c := c, leaving := update s.leaving b (pid ::ₘ s.leaving b) }
  | .brelse pid b =>
    if pid ∈ s.leaving b then
      .ok { s with
        c := s.c.brelse b
        leaving := update s.leaving b ((s.leaving b).erase pid)
        clock := s.clock + 1
        stamp := update s.stamp b (s.clock + 1) }
    else .error .disabled
  | .bpin b => .ok { s with c := s.c.bpin b, pins := update s.pins b (s.pins b + 1) }
  | .bunpin pid b =>
    if s.holds pid b ∧ 0 < s.pins b then
      .ok { s with c := s.c.bunpin b, pins := update s.pins b (s.pins b - 1) }
    else .error .disabled

/-- After `binit`, with any contents of the disk. -/
def init (zero : Block) (disk : Nat → Nat → Block) : BioSys Block :=
  ⟨.binit zero, disk, fun _ => 0, fun _ => 0, fun _ => 0, 0, fun _ => 0⟩

/-- The states of all interleavings. -/
abbrev Reachable (s : BioSys Block) : Prop :=
  Lib.Reach (fun s => ∃ zero disk, s = init zero disk) (fun _ _ => True) step s

/-- Waiters, the holder, processes inside `brelse`, and pins. -/
def refs (s : BioSys Block) (b : BufId) : Nat :=
  (s.waiting b).card + (if (s.c.buf b).locked = none then 0 else 1) + (s.leaving b).card + s.pins b

/-! ## §4. The invariant. -/

/-- The list is whole, blocks are cached once, and counts are the numbers of users. -/
structure Inv (s : BioSys Block) (l : List BufId) : Prop where
  listed : s.c.Listed l
  unique : s.c.Unique
  refcnt : ∀ b, (s.c.buf b).refcnt = s.refs b
  lru : l.Pairwise fun b b' =>
    (s.c.buf b).refcnt = 0 → (s.c.buf b').refcnt = 0 → s.stamp b' ≤ s.stamp b
  stamped : ∀ b, s.stamp b ≤ s.clock

variable {s s' : BioSys Block} {l : List BufId} {b : BufId}

variable (h : s.Inv l)
include h

/-- **One buffer changes**, keeps its block and does not become unused. -/
theorem Inv.change (b : BufId) (hlinks : s'.c.links = s.c.links)
    (hbuf : ∀ b', b' ≠ b → s'.c.buf b' = s.c.buf b') (hrefs : ∀ b', b' ≠ b → s'.refs b' = s.refs b')
    (hblock : (s'.c.buf b).dev = (s.c.buf b).dev ∧ (s'.c.buf b).blockno = (s.c.buf b).blockno)
    (hcount : (s'.c.buf b).refcnt = s'.refs b)
    (hzero : (s'.c.buf b).refcnt = 0 → (s.c.buf b).refcnt = 0 ∧ s'.stamp b = s.stamp b)
    (hstamp : ∀ b', b' ≠ b → s'.stamp b' = s.stamp b')
    (hclock : s.clock ≤ s'.clock) (hb : s'.stamp b ≤ s'.clock) : s'.Inv l := by
  have hsame : ∀ b', (s'.c.buf b').dev = (s.c.buf b').dev
      ∧ (s'.c.buf b').blockno = (s.c.buf b').blockno := by
    intro b'
    by_cases hb' : b' = b
    · rw [hb']; exact hblock
    · rw [hbuf b' hb']; exact ⟨rfl, rfl⟩
  have hunused : ∀ b', (s'.c.buf b').refcnt = 0 →
      (s.c.buf b').refcnt = 0 ∧ s'.stamp b' = s.stamp b' := by
    intro b' hz
    by_cases hb' : b' = b
    · rw [hb'] at hz ⊢; exact hzero hz
    · rw [hbuf b' hb'] at hz; exact ⟨hz, hstamp b' hb'⟩
  refine ⟨⟨by rw [hlinks]; exact h.listed.ring, h.listed.all⟩, ?_, ?_, ?_, ?_⟩
  · exact h.unique.congr hsame
  · intro b'
    by_cases hb' : b' = b
    · rw [hb']; exact hcount
    · rw [hbuf b' hb', hrefs b' hb']; exact h.refcnt b'
  · refine h.lru.imp ?_
    intro b₁ b₂ hle hz₁ hz₂
    obtain ⟨hz₁, hs₁⟩ := hunused b₁ hz₁
    obtain ⟨hz₂, hs₂⟩ := hunused b₂ hz₂
    rw [hs₁, hs₂]
    exact hle hz₁ hz₂
  · intro b'
    by_cases hb' : b' = b
    · rw [hb']; exact hb
    · rw [hstamp b' hb']; exact le_trans (h.stamped b') hclock

/-- The same for a change that leaves times and other processes alone. -/
theorem Inv.adjust (b : BufId) {x : Buf Block} {w k : Multiset Pid} {n : Nat}
    (hdev : x.dev = (s.c.buf b).dev) (hno : x.blockno = (s.c.buf b).blockno)
    (hcount : x.refcnt = w.card + (if x.locked = none then 0 else 1) + k.card + n)
    (hzero : x.refcnt = 0 → (s.c.buf b).refcnt = 0) :
    Inv { s with
      c := s.c.set b x
      waiting := update s.waiting b w
      leaving := update s.leaving b k
      pins := update s.pins b n } l := by
  refine h.change b rfl (fun b' hb' => Bcache.set_ne s.c x hb') (fun b' hb' => ?_) ?_ ?_ ?_
    (fun _ _ => rfl) (le_refl _) (h.stamped b)
  · unfold refs
    dsimp only
    rw [Bcache.set_ne s.c x hb', update_of_ne hb', update_of_ne hb',
      update_of_ne hb']
  · dsimp only
    rw [Bcache.set_same]
    exact ⟨hdev, hno⟩
  · unfold refs
    dsimp only
    rw [Bcache.set_same, update_self, update_self, update_self]
    exact hcount
  · dsimp only
    rw [Bcache.set_same]
    exact fun hz => ⟨hzero hz, rfl⟩

/-- A change of the holder's buffer that leaves all records alone. -/
theorem Inv.contents (b : BufId) {x : Buf Block} (disk : Nat → Nat → Block)
    (hdev : x.dev = (s.c.buf b).dev) (hno : x.blockno = (s.c.buf b).blockno)
    (hlock : x.locked = (s.c.buf b).locked) (hcnt : x.refcnt = (s.c.buf b).refcnt) :
    Inv { s with c := s.c.set b x, disk := disk } l := by
  have hadj := h.adjust b (x := x) (w := s.waiting b) (k := s.leaving b) (n := s.pins b) hdev hno
    (by rw [hlock, hcnt]; exact h.refcnt b) (by rw [hcnt]; exact id)
  rw [update_eq_self, update_eq_self, update_eq_self] at hadj
  exact ⟨hadj.listed, hadj.unique, hadj.refcnt, hadj.lru, hadj.stamped⟩

variable {pid : Pid}

omit h in
/-- A held buffer is in use. -/
theorem refs_held (hh : s.holds pid b) : s.refs b = (s.waiting b).card + 1 + (s.leaving b).card + s.pins b := by
  unfold refs
  rw [show (s.c.buf b).locked = some pid from hh, if_neg (by exact fun he => by cases he)]

/-- The unused buffer nearest to the end of the list was released first. -/
theorem Inv.victim (hfind : l.reverse.find? s.c.unused = some b) :
    (s.c.buf b).refcnt = 0 ∧ ∀ b', (s.c.buf b').refcnt = 0 → s.stamp b ≤ s.stamp b' := by
  have hzero : (s.c.buf b).refcnt = 0 := Bcache.unused_iff.mp (List.find?_some hfind)
  refine ⟨hzero, fun b' hz => ?_⟩
  obtain ⟨-, as, bs, hsplit, hnone⟩ := List.find?_eq_some_iff_append.mp hfind
  have hpw := List.pairwise_reverse.mpr h.lru
  rw [hsplit] at hpw
  have hmem : b' ∈ as ++ b :: bs := by
    rw [← hsplit]
    exact List.mem_reverse.mpr (h.listed.all b')
  rcases List.mem_append.mp hmem with has | hbs
  · -- the scan has passed all buffers of this part
    have := hnone b' has
    rw [Bcache.unused_iff.mpr hz] at this
    cases this
  · rcases List.mem_cons.mp hbs with rfl | hbs
    · exact le_refl _
    · have hrel := (List.pairwise_cons.mp (List.pairwise_append.mp hpw).2.1).1 b' hbs
      exact hrel hz hzero

theorem Inv.bget {dev blockno : Nat} {c : Bcache Block}
    (hget : s.c.bget dev blockno = .ok (c, b)) :
    Inv { s with c := c, waiting := update s.waiting b (pid ::ₘ s.waiting b) } l := by
  rcases Bcache.bget_cases h.listed hget with ⟨-, rfl⟩ | ⟨hno, hfind, rfl⟩
  · have hadj := h.adjust b (x := { s.c.buf b with refcnt := (s.c.buf b).refcnt + 1 })
      (w := pid ::ₘ s.waiting b) (k := s.leaving b) (n := s.pins b) rfl rfl
      (by
        have hr := h.refcnt b
        unfold refs at hr
        rw [Multiset.card_cons]
        dsimp only
        omega)
      (fun hz => by cases hz)
    rw [update_eq_self, update_eq_self] at hadj
    exact hadj
  -- an unused buffer has no waiter, holder or pin
  obtain ⟨hzero, -⟩ := h.victim hfind
  have hr := h.refcnt b
  unfold refs at hr
  refine ⟨⟨h.listed.ring, h.listed.all⟩, ?_, ?_, ?_, h.stamped⟩
  · exact h.unique.retarget hno
  · intro b'
    unfold refs
    dsimp only
    by_cases hb' : b' = b
    · rw [hb', Bcache.set_same, update_self, Multiset.card_cons]
      show 1 = _
      dsimp only
      omega
    · rw [Bcache.set_ne _ _ hb', update_of_ne hb']
      exact h.refcnt b'
  · refine h.lru.imp ?_
    intro b₁ b₂ hle hz₁ hz₂
    by_cases h₁ : b₁ = b
    · rw [h₁, Bcache.set_same] at hz₁; cases hz₁
    · by_cases h₂ : b₂ = b
      · rw [h₂, Bcache.set_same] at hz₂; cases hz₂
      · rw [Bcache.set_ne _ _ h₁] at hz₁
        rw [Bcache.set_ne _ _ h₂] at hz₂
        exact hle hz₁ hz₂

/-- The section of `brelse`: the last user moves the buffer to the front. -/
theorem Inv.brelse (hin : pid ∈ s.leaving b) :
    ∃ l', Inv { s with
      c := s.c.brelse b
      leaving := update s.leaving b ((s.leaving b).erase pid)
      clock := s.clock + 1
      stamp := update s.stamp b (s.clock + 1) } l' := by
  have hcard := Multiset.card_erase_add_one hin
  have hr := h.refcnt b
  unfold refs at hr
  have hbuf : ∀ b', b' ≠ b → (s.c.brelse b).buf b' = s.c.buf b' := fun b' => s.c.brelse_ne
  have hat := s.c.brelse_same b
  have hrefs : ∀ b', ((s.c.brelse b).buf b').refcnt = refs { s with
      c := s.c.brelse b
      leaving := update s.leaving b ((s.leaving b).erase pid)
      clock := s.clock + 1
      stamp := update s.stamp b (s.clock + 1) } b' := by
    intro b'
    unfold refs
    dsimp only
    by_cases hb' : b' = b
    · rw [hb', hat, update_self]
      dsimp only
      omega
    · rw [hbuf b' hb', update_of_ne hb']
      exact h.refcnt b'
  have hunique : (s.c.brelse b).Unique := by
    refine h.unique.congr fun b' => ?_
    by_cases hb' : b' = b
    · rw [hb', hat]; exact ⟨rfl, rfl⟩
    · rw [hbuf b' hb']; exact ⟨rfl, rfl⟩
  have hstamped : ∀ b', update s.stamp b (s.clock + 1) b' ≤ s.clock + 1 := by
    intro b'
    by_cases hb' : b' = b
    · rw [hb', update_self]
    · rw [update_of_ne hb']
      exact Nat.le_succ_of_le (h.stamped b')
  have hlisted := h.listed.brelse b
  refine ⟨_, hlisted, hunique, hrefs, ?_, hstamped⟩
  by_cases hz : (s.c.buf b).refcnt - 1 = 0
  · -- the last user: in front with the newest stamp
    rw [if_pos hz]
    refine List.pairwise_cons.mpr ⟨fun b' _ _ _ => ?_, ?_⟩
    · dsimp only
      rw [update_self]
      exact hstamped b'
    refine List.Pairwise.imp_of_mem ?_ (h.lru.sublist (List.erase_sublist ..))
    intro b₁ b₂ hm₁ hm₂ hle hz₁ hz₂
    dsimp only at hz₁ hz₂ ⊢
    have h₁ : b₁ ≠ b := fun he => (h.listed.nodup.mem_erase_iff.mp hm₁).1 he
    have h₂ : b₂ ≠ b := fun he => (h.listed.nodup.mem_erase_iff.mp hm₂).1 he
    rw [hbuf b₁ h₁] at hz₁
    rw [hbuf b₂ h₂] at hz₂
    rw [update_of_ne h₁, update_of_ne h₂]
    exact hle hz₁ hz₂
  · rw [if_neg hz]
    refine h.lru.imp ?_
    intro b₁ b₂ hle hz₁ hz₂
    dsimp only at hz₁ hz₂ ⊢
    have h₁ : b₁ ≠ b := fun he => hz (by rw [he, hat] at hz₁; exact hz₁)
    have h₂ : b₂ ≠ b := fun he => hz (by rw [he, hat] at hz₂; exact hz₂)
    rw [hbuf b₁ h₁] at hz₁
    rw [hbuf b₂ h₂] at hz₂
    rw [update_of_ne h₁, update_of_ne h₂]
    exact hle hz₁ hz₂

theorem Inv.acquiresleep (hin : pid ∈ s.waiting b)
    (hfree : (s.c.buf b).locked = none) :
    Inv { s with
      c := s.c.set b { s.c.buf b with locked := some pid }
      waiting := update s.waiting b ((s.waiting b).erase pid) } l := by
  have hcard := Multiset.card_erase_add_one hin
  have hr := h.refcnt b
  unfold refs at hr
  rw [if_pos hfree] at hr
  have hadj := h.adjust b (x := { s.c.buf b with locked := some pid })
    (w := (s.waiting b).erase pid) (k := s.leaving b) (n := s.pins b) rfl rfl
    (by
      rw [if_neg (by exact fun he => by cases he)]
      dsimp only
      omega)
    id
  rw [update_eq_self, update_eq_self] at hadj
  exact hadj

theorem Inv.unlock (hh : s.holds pid b) :
    Inv { s with
      c := s.c.set b { s.c.buf b with locked := none }
      leaving := update s.leaving b (pid ::ₘ s.leaving b) } l := by
  have hr := h.refcnt b
  rw [refs_held hh] at hr
  have hadj := h.adjust b (x := { s.c.buf b with locked := none })
    (w := s.waiting b) (k := pid ::ₘ s.leaving b) (n := s.pins b) rfl rfl
    (by
      rw [if_pos rfl, Multiset.card_cons]
      dsimp only
      omega)
    id
  rw [update_eq_self, update_eq_self] at hadj
  exact hadj

/-- `bpin` and `bunpin` change a pin and `refcnt` alike. -/
theorem Inv.repin {cnt n : Nat} (hcnt : cnt + s.pins b = (s.c.buf b).refcnt + n)
    (hzero : cnt = 0 → (s.c.buf b).refcnt = 0) :
    Inv { s with
      c := s.c.set b { s.c.buf b with refcnt := cnt }
      pins := update s.pins b n } l := by
  have hr := h.refcnt b
  unfold refs at hr
  have hadj := h.adjust b (x := { s.c.buf b with refcnt := cnt })
    (w := s.waiting b) (k := s.leaving b) (n := n) rfl rfl
    (by
      dsimp only
      omega)
    hzero
  rw [update_eq_self, update_eq_self] at hadj
  exact hadj

theorem Inv.fill (b : BufId) : Inv { s with c := s.c.fill s.disk b } l := by
  unfold Bcache.fill
  split
  · exact h
  · exact h.contents b s.disk rfl rfl rfl rfl

variable {a : BioStep Block}

/-- **One step** keeps the invariant, with the list as the step leaves it. -/
theorem Inv.step (hstep : s.step a = .ok s') : ∃ l', s'.Inv l' := by
  cases a with
  | bget pid dev blockno =>
    simp only [BioSys.step] at hstep
    cases hget : s.c.bget dev blockno with
    | error e => rw [hget] at hstep; cases hstep
    | ok r =>
      rw [hget] at hstep
      cases hstep
      exact ⟨l, h.bget hget⟩
  | acquiresleep pid b =>
    simp only [BioSys.step, Bcache.acquiresleep] at hstep
    split at hstep
    · next hin =>
      split at hstep
      · next hfree =>
        cases hstep
        exact ⟨l, h.acquiresleep hin hfree⟩
      · cases hstep
    · cases hstep
  | fill pid b =>
    simp only [BioSys.step] at hstep
    split at hstep
    · cases hstep
      exact ⟨l, h.fill b⟩
    · cases hstep
  | store pid b data =>
    simp only [BioSys.step] at hstep
    split at hstep
    · cases hstep
      exact ⟨l, h.contents b s.disk rfl rfl rfl rfl⟩
    · cases hstep
  | bwrite pid b =>
    simp only [BioSys.step] at hstep
    split at hstep
    · cases hstep
      exact ⟨l, h.listed, h.unique, h.refcnt, h.lru, h.stamped⟩
    · cases hstep
  | unlock pid b =>
    simp only [BioSys.step, Bcache.unlock] at hstep
    split at hstep
    · next hh =>
      cases hstep
      exact ⟨l, h.unlock hh⟩
    · cases hstep
  | brelse pid b =>
    simp only [BioSys.step] at hstep
    split at hstep
    · next hin =>
      cases hstep
      exact h.brelse hin
    · cases hstep
  | bpin b =>
    cases hstep
    exact ⟨l, h.repin (by omega) (fun hz => by cases hz)⟩
  | bunpin pid b =>
    simp only [BioSys.step] at hstep
    split at hstep
    · next hc =>
      cases hstep
      -- the holder is counted, so the buffer stays in use
      have hr := h.refcnt b
      rw [refs_held hc.1] at hr
      exact ⟨l, h.repin (by omega) (fun hz => by omega)⟩
    · cases hstep

omit h

theorem init_inv (zero : Block) (disk : Nat → Nat → Block) :
    Inv (init zero disk) (List.finRange NBUF).reverse where
  listed := Bcache.binit_listed zero
  unique := fun _ _ hne _ _ => absurd rfl hne
  refcnt := fun _ => rfl
  lru := List.pairwise_of_forall fun _ _ _ _ => le_refl 0
  stamped := fun _ => le_refl 0

theorem Reachable.inv (h : s.Reachable) : ∃ l, s.Inv l := by
  refine Lib.Reach.invariant (I := fun s => ∃ l, s.Inv l) ?_ ?_ h
  · rintro s ⟨zero, disk, rfl⟩
    exact ⟨_, init_inv zero disk⟩
  · rintro s a s' ⟨l, hl⟩ - hstep
    exact hl.step hstep

/-! ## §5. What the cache guarantees. -/

/-- A step changes the block of a buffer only if the buffer is unused. -/
theorem Inv.target_kept (h : s.Inv l) (hstep : s.step a = .ok s') (b : BufId) (hused : 0 < (s.c.buf b).refcnt) :
    (s'.c.buf b).dev = (s.c.buf b).dev ∧ (s'.c.buf b).blockno = (s.c.buf b).blockno := by
  -- every function but `bget` writes back the block it found
  have hset : ∀ b' (x : Buf Block), x.dev = (s.c.buf b').dev → x.blockno = (s.c.buf b').blockno →
      ((s.c.set b' x).buf b).dev = (s.c.buf b).dev
        ∧ ((s.c.set b' x).buf b).blockno = (s.c.buf b).blockno := by
    intro b' x hdev hno
    by_cases hb : b = b'
    · rw [hb, Bcache.set_same]; exact ⟨hdev, hno⟩
    · rw [Bcache.set_ne _ _ hb]; exact ⟨rfl, rfl⟩
  cases a with
  | bget pid dev blockno =>
    simp only [BioSys.step] at hstep
    cases hget : s.c.bget dev blockno with
    | error e => rw [hget] at hstep; cases hstep
    | ok r =>
      obtain ⟨c, b'⟩ := r
      rw [hget] at hstep
      cases hstep
      rcases Bcache.bget_cases h.listed hget with ⟨-, rfl⟩ | ⟨-, hfind, rfl⟩
      · exact hset b' _ rfl rfl
      have hne : b ≠ b' := by
        rintro rfl
        rw [(h.victim hfind).1] at hused
        exact absurd hused (Nat.lt_irrefl 0)
      show ((s.c.set b' _).buf b).dev = _ ∧ ((s.c.set b' _).buf b).blockno = _
      rw [Bcache.set_ne _ _ hne]
      exact ⟨rfl, rfl⟩
  | acquiresleep pid b' =>
    simp only [BioSys.step, Bcache.acquiresleep] at hstep
    split at hstep
    · split at hstep
      · cases hstep; exact hset b' _ rfl rfl
      · cases hstep
    · cases hstep
  | fill pid b' =>
    simp only [BioSys.step, Bcache.fill] at hstep
    split at hstep
    · cases hstep
      split
      · exact ⟨rfl, rfl⟩
      · exact hset b' _ rfl rfl
    · cases hstep
  | store pid b' data | bunpin pid b' =>
    simp only [BioSys.step] at hstep
    split at hstep
    · cases hstep; exact hset b' _ rfl rfl
    · cases hstep
  | bwrite pid b' =>
    simp only [BioSys.step] at hstep
    split at hstep
    · cases hstep; exact ⟨rfl, rfl⟩
    · cases hstep
  | unlock pid b' =>
    simp only [BioSys.step, Bcache.unlock] at hstep
    split at hstep
    · cases hstep; exact hset b' _ rfl rfl
    · cases hstep
  | brelse pid b' =>
    simp only [BioSys.step, Bcache.brelse] at hstep
    split at hstep
    · cases hstep
      split
      · exact hset b' _ rfl rfl
      · exact hset b' _ rfl rfl
    · cases hstep
  | bpin b' => cases hstep; exact hset b' _ rfl rfl

/-- The structure of the cache and what its next step may do. -/
structure Structured (s : BioSys Block) : Prop where
  /-- one circular doubly linked list through the head, each buffer once -/
  list : ∃ l : List BufId, s.c.links.Ring none (l.map some) ∧ l.Nodup ∧ ∀ b, b ∈ l
  /-- a block of a device is in at most one buffer -/
  unique : s.c.Unique
  /-- `refcnt` counts waiters, holders and pins -/
  refcnt : ∀ b, (s.c.buf b).refcnt = s.refs b
  /-- a buffer in use keeps its block -/
  kept : ∀ a s', s.step a = .ok s' → ∀ b, 0 < (s.c.buf b).refcnt →
    (s'.c.buf b).dev = (s.c.buf b).dev ∧ (s'.c.buf b).blockno = (s.c.buf b).blockno
  /-- a miss takes the unused buffer whose last `brelse` is oldest -/
  oldest : ∀ dev blockno c b, (∀ b', s.c.caches dev blockno b' = false) →
    s.c.bget dev blockno = .ok (c, b) →
    (s.c.buf b).refcnt = 0 ∧ ∀ b', (s.c.buf b').refcnt = 0 → s.stamp b ≤ s.stamp b'

/-- **Buffer cache structure**, after every interleaving of the critical
sections of any processes. -/
theorem bcache_structure (h : s.Reachable) : s.Structured := by
  obtain ⟨l, hinv⟩ := h.inv
  refine ⟨⟨l, hinv.listed.ring, hinv.listed.nodup, hinv.listed.all⟩, hinv.unique, hinv.refcnt,
    fun a s' hstep b hused => hinv.target_kept hstep b hused, ?_⟩
  intro dev blockno c b hno hget
  rcases Bcache.bget_cases hinv.listed hget with ⟨hhit, -⟩ | ⟨-, hfind, -⟩
  · rw [hno b] at hhit
    cases hhit
  · exact hinv.victim hfind

/-- Process 1 reads block 5 and pins it while process 2 waits for it; both
release it. -/
def pinRun : List (BioStep Nat) :=
  [.bget 1 1 5, .acquiresleep 1 0, .fill 1 0, .bget 2 1 5, .bpin 0, .unlock 1 0, .brelse 1 0,
    .acquiresleep 2 0, .unlock 2 0, .brelse 2 0, .bget 1 1 6]

theorem bcache_structure_pinRun : ∃ s : BioSys Nat, s.Reachable ∧ s.Structured
    ∧ s.c.caches 1 5 0 = true ∧ (s.c.buf 0).refcnt = 1 ∧ s.c.caches 1 6 1 = true := by
  have hreach : ∃ s : BioSys Nat, s.Reachable
      ∧ decide (s.c.caches 1 5 0 = true ∧ (s.c.buf 0).refcnt = 1 ∧ s.c.caches 1 6 1 = true)
        = true :=
    Lib.Reach.of_reaches pinRun _ ⟨0, fun _ blockno => blockno, rfl⟩ (by decide +kernel)
  obtain ⟨s, hrun, htest⟩ := hreach
  exact ⟨s, hrun, bcache_structure hrun, of_decide_eq_true htest⟩

end BioSys

end Xv6
