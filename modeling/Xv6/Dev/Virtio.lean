/-
  Xv6.Dev.Virtio — the disk driver (`kernel/virtio_disk.c`).

  A request takes three descriptors, which it links into a chain, and gives
  the number of the first one to the device in the ring `avail`.  The device
  gives the number back in the ring `used` when it has finished.  Both rings
  have 8 cells and free-running 16-bit indices.

  The unit of interleaving is a critical section of `disk.vdisk_lock`.
  `virtio_disk_intr` is taken apart further: the device may finish requests
  between two turns of its loop.  The device is a party of its own, which
  fetches the numbers it is given in order and finishes them in any order.
  The callers of `virtio_disk_rw` hold `b->lock`, as `bread` and `bwrite` do.

  Requests are numbered in the order of their submission, so that the
  completions and the clearings of `b->disk` can be told apart when
  descriptors and buffers are used again.

  Main results:
    * `alloc3_desc_spec` — three descriptors or none,
    * `free_chain_spec`  — a chain is freed, and no more,
    * `Virtq.since_put`, `Virtq.since_next` — the rings are queues.
-/
import Xv6.Param
import Xv6.Lib.Runs
import Xv6.Lib.Ring

namespace Xv6

open Function (update update_apply update_eq_self update_idem update_of_ne update_self)

/-! ## §1. Descriptors. -/

/-- The number of descriptors. -/
def NUM : Nat := 8

/-- the descriptor is chained to another -/
def VRING_DESC_F_NEXT : UInt16 := 1
/-- the device writes the memory -/
def VRING_DESC_F_WRITE : UInt16 := 2

/-- The addresses that the driver puts into descriptors. -/
inductive DescAddr where
  | null
  /-- `&disk.ops[i]` -/
  | ops (i : Nat)
  /-- `b->data` -/
  | data (b : Nat)
  /-- `&disk.info[i].status` -/
  | status (i : Nat)
  deriving DecidableEq

/-- `struct virtq_desc` -/
structure VirtqDesc where
  addr : DescAddr
  len : Nat
  flags : UInt16
  next : Nat
  deriving DecidableEq

/-- Why a step does not return. -/
inductive DiskFault where
  /-- the party is not there -/
  | disabled
  | panic (msg : String)
  /-- a null `struct buf *` is dereferenced -/
  | null
  /-- `free_chain` does not end -/
  | loop
  deriving DecidableEq

/-- `disk.desc` and `disk.free` -/
structure DescTable where
  desc : Nat → VirtqDesc
  free : Nat → Bool

/-- `alloc_desc()`; -1 is `none`. -/
def alloc_desc (t : DescTable) : DescTable × Option Nat :=
  match (List.range NUM).find? t.free with
  | some i => ({ t with free := update t.free i false }, some i)
  | none => (t, none)

/-- `free_desc(i)`, with `wakeup(&disk.free[0])` left to its callers -/
def free_desc (t : DescTable) (i : Nat) : Except DiskFault DescTable :=
  if i ≥ NUM then .error (.panic "free_desc 1")
  else if t.free i then .error (.panic "free_desc 2")
  else .ok ⟨update t.desc i ⟨.null, 0, 0, 0⟩, update t.free i true⟩

/-- `free_chain(i)`.  A turn that does not panic frees a descriptor, so `NUM + 1` turns are enough. -/
def free_chain : Nat → DescTable → Nat → Except DiskFault DescTable
  | 0, _, _ => .error .loop
  | k + 1, t, i =>
    let flag := (t.desc i).flags
    let nxt := (t.desc i).next
    match free_desc t i with
    | .error f => .error f
    | .ok t' => if flag &&& VRING_DESC_F_NEXT ≠ 0 then free_chain k t' nxt else .ok t'

/-- `alloc3_desc(idx)`: the descriptors, or none of them, and whether a `free_desc` has called
`wakeup`. -/
def alloc3_desc (t : DescTable) : Except DiskFault (DescTable × Option (Nat × Nat × Nat) × Bool) :=
  match alloc_desc t with
  | (t, none) => .ok (t, none, false)
  | (t, some i) =>
    match alloc_desc t with
    | (t, none) =>
      match free_desc t i with
      | .error f => .error f
      | .ok t => .ok (t, none, true)
    | (t, some j) =>
      match alloc_desc t with
      | (t, none) =>
        match free_desc t i with
        | .error f => .error f
        | .ok t =>
          match free_desc t j with
          | .error f => .error f
          | .ok t => .ok (t, none, true)
      | (t, some k) => .ok (t, some (i, j, k), false)

/-! ## §2. The driver and the device. -/

/-- `struct virtq_avail` and `struct virtq_used`: the indices of first descriptors, and where the
next one is written -/
structure Virtq where
  idx : UInt16
  ring : Nat → Nat

/-- `ring[idx % NUM] = i; idx += 1` -/
def Virtq.put (v : Virtq) (i : Nat) : Virtq :=
  ⟨v.idx + 1, update v.ring (v.idx.toNat % NUM) i⟩

/-- `ring[k % NUM]` -/
def Virtq.get (v : Virtq) (k : UInt16) : Nat := v.ring (k.toNat % NUM)

/-- `struct virtio_blk_req`, without `reserved` -/
structure BlkReq where
  write : Bool
  sector : Nat
  deriving DecidableEq

/-- `disk.info[]` -/
structure DiskInfo where
  b : Option Nat
  status : UInt8

/-- `struct disk`, without its lock -/
structure VirtioDisk where
  table : DescTable
  avail : Virtq
  used : Virtq
  used_idx : UInt16
  info : Nat → DiskInfo
  ops : Nat → BlkReq

/-- A request that was submitted: its buffer and block, its descriptors `idx[0..2]` and its number. -/
structure DiskReq where
  b : Nat
  blockno : Nat
  write : Bool
  head : Nat
  mid : Nat
  tail : Nat
  num : Nat
  deriving DecidableEq

/-- The descriptors of a request. -/
def DiskReq.descs (r : DiskReq) : List Nat := [r.head, r.mid, r.tail]

/-- The three descriptors, as `virtio_disk_rw` formats them. -/
def DiskReq.format (r : DiskReq) (t : DescTable) : DescTable :=
  let desc := update t.desc r.head ⟨.ops r.head, 16, VRING_DESC_F_NEXT, r.mid⟩
  let desc := update desc r.mid
    ⟨.data r.b, BSIZE, (if r.write then 0 else VRING_DESC_F_WRITE) ||| VRING_DESC_F_NEXT, r.tail⟩
  let desc := update desc r.tail ⟨.status r.head, 1, VRING_DESC_F_WRITE, 0⟩
  { t with desc := desc }

/-- `virtio_disk_rw` from the formatting of the descriptors to the notification of the device. -/
def VirtioDisk.submit (d : VirtioDisk) (t : DescTable) (r : DiskReq) : VirtioDisk :=
  { d with
    table := r.format t
    ops := update d.ops r.head ⟨r.write, r.blockno * (BSIZE / 512)⟩
    info := update d.info r.head ⟨some r.b, 0xff⟩
    avail := d.avail.put r.head }

/-- The device writes the status where the third descriptor of the chain says. -/
def VirtioDisk.writeStatus (d : VirtioDisk) (i : Nat) (st : UInt8) : VirtioDisk :=
  let t := d.table
  match (t.desc (t.desc (t.desc i).next).next).addr with
  | .status j => { d with info := update d.info j { d.info j with status := st } }
  | _ => d

/-- Where a process is in `virtio_disk_rw`. -/
inductive DiskPc where
  | idle
  /-- in the loop around `alloc3_desc` -/
  | alloc (b blockno : Nat) (write : Bool)
  /-- in the loop around `b->disk` -/
  | wait (r : DiskReq)
  deriving DecidableEq

/-- The channels of `sleep`. -/
inductive DiskChan where
  /-- `&disk.free[0]` -/
  | free
  | buf (b : Nat)
  deriving DecidableEq

/-- A process in the driver. -/
structure DiskProc where
  pc : DiskPc
  /-- the channel it sleeps on -/
  chan : Option DiskChan

/-- The driver, the device and the processes. -/
structure DiskSys (ι : Type) where
  disk : VirtioDisk
  /-- `b->disk == 1` -/
  bdisk : Nat → Bool
  /-- who holds `b->lock` -/
  lock : Nat → Option ι
  proc : ι → DiskProc
  /-- `virtio_disk_intr` is running, with `vdisk_lock` -/
  intr : Bool
  /-- how far the device has read `avail` -/
  seen : UInt16
  /-- what the device has fetched and not finished -/
  working : List Nat
  /-- the number of requests so far -/
  nreq : Nat
  /-- the last request with this first descriptor -/
  req : Nat → Nat
  /-- the last request on this buffer -/
  owner : Nat → Nat
  /-- the requests the device has finished, in order -/
  completions : List Nat
  /-- the requests whose `b->disk` was cleared, in order -/
  clears : List Nat
  /-- the requests whose `virtio_disk_rw` has freed its chain -/
  finished : List Nat

/-- The steps of processes, device and interrupt handler. -/
inductive DiskStep (ι : Type) where
  | acquiresleep (i : ι) (b : Nat)
  | releasesleep (i : ι) (b : Nat)
  | virtio_disk_rw (i : ι) (b blockno : Nat) (write : Bool)
  /-- the next section of a `virtio_disk_rw` -/
  | run (i : ι)
  | virtio_disk_intr
  /-- one turn of the loop of `virtio_disk_intr` -/
  | intrNext
  /-- the loop of `virtio_disk_intr` has ended -/
  | intrEnd
  /-- the device takes the next chain -/
  | fetch
  /-- the device finishes a chain and writes its status -/
  | complete (h : Nat) (st : UInt8)
  | kill (i : ι)

namespace DiskSys

variable {ι : Type} [DecidableEq ι]

/-- The state of a process changes. -/
def setProc (s : DiskSys ι) (i : ι) (p : DiskProc) : DiskSys ι :=
  { s with proc := update s.proc i p }

/-- `wakeup(chan)` -/
def wakeup (s : DiskSys ι) (c : DiskChan) : DiskSys ι :=
  { s with proc := fun i => if (s.proc i).chan = some c then { s.proc i with chan := none } else s.proc i }

/-- One section of the loop around `alloc3_desc`.  When it succeeds, `b->disk` is 1 at the first
test of the second loop, so the process sleeps. -/
def tryAlloc (s : DiskSys ι) (i : ι) (b blockno : Nat) (write : Bool) : Except DiskFault (DiskSys ι) :=
  match alloc3_desc s.disk.table with
  | .error f => .error f
  | .ok (t, none, woken) =>
    let s' : DiskSys ι := { s with disk := { s.disk with table := t } }
    .ok ((if woken then s'.wakeup .free else s').setProc i ⟨.alloc b blockno write, some .free⟩)
  | .ok (t, some (x, y, z), _) =>
    let r : DiskReq := ⟨b, blockno, write, x, y, z, s.nreq⟩
    .ok (({ s with
      disk := s.disk.submit t r
      bdisk := update s.bdisk b true
      nreq := s.nreq + 1
      req := update s.req x s.nreq
      owner := update s.owner b s.nreq } : DiskSys ι).setProc i ⟨.wait r, some (.buf b)⟩)

/-- One section of the loop around `b->disk`. -/
def tryFinish (s : DiskSys ι) (i : ι) (r : DiskReq) : Except DiskFault (DiskSys ι) :=
  if s.bdisk r.b then .ok (s.setProc i ⟨.wait r, some (.buf r.b)⟩)
  else
    match free_chain (NUM + 1) s.disk.table r.head with
    | .error f => .error f
    | .ok t =>
      let d : VirtioDisk := { s.disk with
        table := t
        info := update s.disk.info r.head { s.disk.info r.head with b := none } }
      .ok ((({ s with disk := d, finished := s.finished ++ [r.num] } : DiskSys ι).wakeup .free).setProc i
        ⟨.idle, none⟩)

/-- What a step does. -/
def step (s : DiskSys ι) : DiskStep ι → Except DiskFault (DiskSys ι)
  | .acquiresleep i b =>
    if (s.proc i).pc = .idle ∧ s.lock b = none then .ok { s with lock := update s.lock b (some i) }
    else .error .disabled
  | .releasesleep i b =>
    if (s.proc i).pc = .idle ∧ s.lock b = some i then .ok { s with lock := update s.lock b none }
    else .error .disabled
  | .virtio_disk_rw i b blockno write =>
    if (s.proc i).pc = .idle ∧ s.lock b = some i then .ok (s.setProc i ⟨.alloc b blockno write, none⟩)
    else .error .disabled
  | .run i =>
    if s.intr = false ∧ (s.proc i).chan = none then
      match (s.proc i).pc with
      | .idle => .error .disabled
      | .alloc b blockno write => s.tryAlloc i b blockno write
      | .wait r => s.tryFinish i r
    else .error .disabled
  | .virtio_disk_intr => if s.intr = false then .ok { s with intr := true } else .error .disabled
  | .intrNext =>
    if s.intr = true ∧ s.disk.used_idx ≠ s.disk.used.idx then
      let id := s.disk.used.get s.disk.used_idx
      if (s.disk.info id).status ≠ 0 then .error (.panic "virtio_disk_intr status")
      else
        match (s.disk.info id).b with
        | none => .error .null
        | some b =>
          .ok (({ s with
            disk := { s.disk with used_idx := s.disk.used_idx + 1 }
            bdisk := update s.bdisk b false
            clears := s.clears ++ [s.owner b] } : DiskSys ι).wakeup (.buf b))
    else .error .disabled
  | .intrEnd =>
    if s.intr = true ∧ s.disk.used_idx = s.disk.used.idx then .ok { s with intr := false }
    else .error .disabled
  | .fetch =>
    if s.seen ≠ s.disk.avail.idx then
      .ok { s with working := s.working ++ [s.disk.avail.get s.seen], seen := s.seen + 1 }
    else .error .disabled
  | .complete h st =>
    if h ∈ s.working then
      let d := s.disk.writeStatus h st
      .ok { s with
        disk := { d with used := d.used.put h }
        working := s.working.erase h
        completions := s.completions ++ [s.req h] }
    else .error .disabled
  | .kill i => .ok (s.setProc i { s.proc i with chan := none })

/-- After `virtio_disk_init`: all descriptors are free, the rings are empty. -/
def Init (s : DiskSys ι) : Prop :=
  (∀ k < NUM, s.disk.table.free k = true) ∧ s.disk.avail.idx = 0 ∧ s.disk.used.idx = 0 ∧ s.disk.used_idx = 0
    ∧ (∀ i, (s.proc i).pc = .idle) ∧ s.seen = 0 ∧ s.working = [] ∧ s.nreq = 0
    ∧ s.completions = [] ∧ s.clears = [] ∧ s.finished = []

/-- The states any interleaving reaches. -/
def Reachable : DiskSys ι → Prop := Lib.Reach Init (fun _ _ => True) step

/-- The descriptors of the request that a process has in flight. -/
def chain (s : DiskSys ι) (i : ι) : List Nat :=
  match (s.proc i).pc with
  | .wait r => r.descs
  | _ => []

/-- What the driver promises. -/
structure Tracked (s : DiskSys ι) : Prop where
  /-- a descriptor is free, or belongs to exactly one chain in flight -/
  owned : ∀ k < NUM, (s.disk.table.free k = true ∧ ∀ i, k ∉ s.chain i)
    ∨ (s.disk.table.free k = false ∧ ∃ i, k ∈ s.chain i ∧ ∀ j, k ∈ s.chain j → j = i)
  three : ∀ i, (s.chain i).Nodup ∧ ∀ k ∈ s.chain i, k < NUM
  /-- `b->disk` is cleared for the requests that the device has finished, in the same order -/
  order : s.clears <+: s.completions
  /-- and for none of them twice -/
  once : s.clears.Nodup
  /-- a request in flight waits until then -/
  waiting : ∀ i r, (s.proc i).pc = .wait r → (s.bdisk r.b = false ↔ r.num ∈ s.clears)
  /-- every request is in flight or has got its clearing -/
  account : ∀ q < s.nreq, (∃ i r, (s.proc i).pc = .wait r ∧ r.num = q) ∨ q ∈ s.finished ∧ q ∈ s.clears
  /-- a failed `alloc3_desc` leaves the free set as it was -/
  alloc3 : ∀ t w, alloc3_desc s.disk.table = .ok (t, none, w) → t.free = s.disk.table.free
  /-- `free_chain` frees the three descriptors of a request -/
  frees : ∀ i r, (s.proc i).pc = .wait r → ∃ t, free_chain (NUM + 1) s.disk.table r.head = .ok t
    ∧ ∀ k, t.free k = true ↔ s.disk.table.free k = true ∨ k ∈ r.descs
  /-- no step panics but for a status that the device has written -/
  safe : ∀ c f, s.step c = .error f → f = .disabled ∨ f = .panic "virtio_disk_intr status"

end DiskSys

/-! ## §3. Taking and freeing descriptors. -/

theorem alloc_desc_cases (t : DescTable) :
    alloc_desc t = (t, none)
    ∨ ∃ i < NUM, t.free i = true ∧ alloc_desc t = ({ t with free := update t.free i false }, some i) := by
  unfold alloc_desc
  cases hfind : (List.range NUM).find? t.free with
  | none => exact .inl rfl
  | some i => exact .inr ⟨i, List.mem_range.mp (List.mem_of_find?_eq_some hfind), List.find?_some hfind, rfl⟩

theorem free_desc_ok (t : DescTable) {i : Nat} (hi : i < NUM) (hfree : t.free i = false) :
    free_desc t i = .ok ⟨update t.desc i ⟨.null, 0, 0, 0⟩, update t.free i true⟩ := by
  unfold free_desc
  rw [if_neg (by omega), hfree]
  rfl

/-- What a failed `alloc3_desc` leaves: the same free set, and the descriptors that are in use. -/
structure DescTable.Same (t t' : DescTable) : Prop where
  free : t'.free = t.free
  desc : ∀ k, t.free k = false → t'.desc k = t.desc k

/-- **Three descriptors, or none.** -/
theorem alloc3_desc_spec (t : DescTable) :
    (∃ t' w, alloc3_desc t = .ok (t', none, w) ∧ t.Same t')
    ∨ ∃ x y z free, alloc3_desc t = .ok ({ t with free := free }, some (x, y, z), false) ∧ [x, y, z].Nodup
      ∧ (∀ k ∈ [x, y, z], k < NUM ∧ t.free k = true)
      ∧ ∀ k, free k = true ↔ t.free k = true ∧ k ∉ [x, y, z] := by
  unfold alloc3_desc
  rcases alloc_desc_cases t with h0 | ⟨x, hx, hfx, h0⟩
  · rw [h0]
    exact .inl ⟨t, false, rfl, rfl, fun _ _ => rfl⟩
  rw [h0]
  dsimp only
  rcases alloc_desc_cases { t with free := update t.free x false } with h1 | ⟨y, hy, hfy, h1⟩
  · -- the first one goes back
    rw [h1]
    dsimp only
    rw [free_desc_ok _ hx (update_self ..)]
    refine .inl ⟨_, true, rfl, ?_, fun k hk => ?_⟩
    · show update (update t.free x false) x true = t.free
      rw [update_idem, ← hfx, update_eq_self]
    · have hne : k ≠ x := fun he => by rw [he, hfx] at hk; cases hk
      exact update_of_ne hne ..
  have hyx : y ≠ x := by
    intro he
    rw [he] at hfy
    have : update t.free x false x = true := hfy
    rw [update_self] at this
    cases this
  have hfy' : t.free y = true := by
    have : update t.free x false y = true := hfy
    rwa [update_of_ne hyx] at this
  rw [h1]
  dsimp only
  rcases alloc_desc_cases { t with free := update (update t.free x false) y false } with
    h2 | ⟨z, hz, hfz, h2⟩
  · -- the first two go back
    rw [h2]
    dsimp only
    have hfx2 : update (update t.free x false) y false x = false := by
      rw [update_of_ne hyx.symm, update_self]
    rw [free_desc_ok _ hx hfx2]
    dsimp only
    have hfy2 : update (update (update t.free x false) y false) x true y = false := by
      rw [update_of_ne hyx, update_self]
    rw [free_desc_ok _ hy hfy2]
    refine .inl ⟨_, true, rfl, ?_, fun k hk => ?_⟩
    · show update (update (update (update t.free x false) y false) x true) y true
        = t.free
      funext k
      by_cases hky : k = y
      · rw [hky, update_self, hfy']
      · rw [update_of_ne hky]
        by_cases hkx : k = x
        · rw [hkx, update_self, hfx]
        · rw [update_of_ne hkx, update_of_ne hky, update_of_ne hkx]
    · have hkx : k ≠ x := fun he => by rw [he, hfx] at hk; cases hk
      have hky : k ≠ y := fun he => by rw [he, hfy'] at hk; cases hk
      show update (update t.desc x _) y _ k = t.desc k
      rw [update_of_ne hky, update_of_ne hkx]
  have hfz' : update (update t.free x false) y false z = true := hfz
  have hzy : z ≠ y := by
    intro he
    rw [he, update_self] at hfz'
    cases hfz'
  rw [update_of_ne hzy] at hfz'
  have hzx : z ≠ x := by
    intro he
    rw [he, update_self] at hfz'
    cases hfz'
  rw [update_of_ne hzx] at hfz'
  rw [h2]
  refine .inr ⟨x, y, z, _, rfl, ?_, ?_, fun k => ?_⟩
  · simp only [List.nodup_cons, List.mem_cons, List.not_mem_nil, or_false, not_or, List.nodup_nil, and_true,
      not_false_eq_true]
    exact ⟨⟨hyx.symm, hzx.symm⟩, hzy.symm⟩
  · intro k hk
    simp only [List.mem_cons, List.not_mem_nil, or_false] at hk
    rcases hk with rfl | rfl | rfl
    · exact ⟨hx, hfx⟩
    · exact ⟨hy, hfy'⟩
    · exact ⟨hz, hfz'⟩
  show update (update (update t.free x false) y false) z false k = true ↔ _
  simp only [update_apply, List.mem_cons, List.not_mem_nil, or_false, not_or]
  by_cases hkz : k = z
  · simp only [hkz, if_true, Bool.false_eq_true, not_true_eq_false, and_false]
  by_cases hky : k = y
  · simp only [hky, if_true, hzy.symm, if_false, Bool.false_eq_true, not_true_eq_false, false_and, and_false]
  · by_cases hkx : k = x
    · simp only [hkx, if_true, hzx.symm, hyx.symm, if_false, Bool.false_eq_true, not_true_eq_false, false_and,
        and_false]
    · simp only [hkz, hky, hkx, if_false, not_false_eq_true, and_true]

/-- The descriptors of the request are those of a formatted chain. -/
structure DiskReq.Linked (r : DiskReq) (t : DescTable) : Prop where
  nodup : r.descs.Nodup
  taken : ∀ k ∈ r.descs, k < NUM ∧ t.free k = false
  head : t.desc r.head = ⟨.ops r.head, 16, VRING_DESC_F_NEXT, r.mid⟩
  mid : t.desc r.mid
    = ⟨.data r.b, BSIZE, (if r.write then 0 else VRING_DESC_F_WRITE) ||| VRING_DESC_F_NEXT, r.tail⟩
  tail : t.desc r.tail = ⟨.status r.head, 1, VRING_DESC_F_WRITE, 0⟩

namespace DiskReq

variable {r : DiskReq} {t t' : DescTable}

theorem Linked.ne (h : r.Linked t) : r.head ≠ r.mid ∧ r.head ≠ r.tail ∧ r.mid ≠ r.tail := by
  have := h.nodup
  simp only [descs, List.nodup_cons, List.mem_cons, List.not_mem_nil, or_false, not_or] at this
  exact ⟨this.1.1, this.1.2, this.2.1⟩

/-- A chain depends on its own descriptors only. -/
theorem Linked.congr (h : r.Linked t) (hdesc : ∀ k ∈ r.descs, t'.desc k = t.desc k)
    (hfree : ∀ k ∈ r.descs, t'.free k = false) : r.Linked t' := by
  have hh : r.head ∈ r.descs := List.mem_cons_self
  have hm : r.mid ∈ r.descs := List.mem_cons_of_mem _ List.mem_cons_self
  have ht : r.tail ∈ r.descs := List.mem_cons_of_mem _ (List.mem_cons_of_mem _ List.mem_cons_self)
  exact ⟨h.nodup, fun k hk => ⟨(h.taken k hk).1, hfree k hk⟩, (hdesc _ hh).trans h.head, (hdesc _ hm).trans h.mid,
    (hdesc _ ht).trans h.tail⟩

/-- Formatting makes a chain. -/
theorem linked_format (hnodup : r.descs.Nodup) (htaken : ∀ k ∈ r.descs, k < NUM ∧ t.free k = false) :
    r.Linked (r.format t) := by
  have hne := hnodup
  simp only [descs, List.nodup_cons, List.mem_cons, List.not_mem_nil, or_false, not_or] at hne
  refine ⟨hnodup, htaken, ?_, ?_, ?_⟩
  · show update (update (update t.desc r.head _) r.mid _) r.tail _ r.head = _
    rw [update_of_ne hne.1.2, update_of_ne hne.1.1, update_self]
  · show update (update (update t.desc r.head _) r.mid _) r.tail _ r.mid = _
    rw [update_of_ne hne.2.1, update_self]
  · show update (update (update t.desc r.head _) r.mid _) r.tail _ r.tail = _
    rw [update_self]

theorem format_other {k : Nat} (hk : k ∉ r.descs) : (r.format t).desc k = t.desc k := by
  simp only [descs, List.mem_cons, List.not_mem_nil, or_false, not_or] at hk
  show update (update (update t.desc r.head _) r.mid _) r.tail _ k = _
  rw [update_of_ne hk.2.2, update_of_ne hk.2.1, update_of_ne hk.1]

end DiskReq

theorem free_chain_next (k : Nat) (t : DescTable) {i : Nat} {d : VirtqDesc} (hi : i < NUM) (hfree : t.free i = false)
    (hd : t.desc i = d) (hflag : d.flags &&& VRING_DESC_F_NEXT ≠ 0) : free_chain (k + 1) t i
      = free_chain k ⟨update t.desc i ⟨.null, 0, 0, 0⟩, update t.free i true⟩ d.next := by
  rw [free_chain, free_desc_ok t hi hfree, hd]
  exact if_pos hflag

theorem free_chain_last (k : Nat) (t : DescTable) {i : Nat} {d : VirtqDesc} (hi : i < NUM) (hfree : t.free i = false)
    (hd : t.desc i = d) (hflag : d.flags &&& VRING_DESC_F_NEXT = 0) : free_chain (k + 1) t i
      = .ok ⟨update t.desc i ⟨.null, 0, 0, 0⟩, update t.free i true⟩ := by
  rw [free_chain, free_desc_ok t hi hfree, hd]
  exact if_neg (not_not.mpr hflag)

/-- **A chain is freed**, and no more. -/
theorem free_chain_spec {r : DiskReq} {t : DescTable} (h : r.Linked t) :
    ∃ t', free_chain (NUM + 1) t r.head = .ok t' ∧ (∀ k, t'.free k = true ↔ t.free k = true ∨ k ∈ r.descs)
      ∧ ∀ k ∉ r.descs, t'.desc k = t.desc k := by
  obtain ⟨hhm, hht, hmt⟩ := h.ne
  obtain ⟨hh, hfh⟩ := h.taken r.head List.mem_cons_self
  obtain ⟨hm, hfm⟩ := h.taken r.mid (List.mem_cons_of_mem _ List.mem_cons_self)
  obtain ⟨ht, hft⟩ := h.taken r.tail (List.mem_cons_of_mem _ (List.mem_cons_of_mem _ List.mem_cons_self))
  have hflag : ((if r.write then 0 else VRING_DESC_F_WRITE) ||| VRING_DESC_F_NEXT) &&& VRING_DESC_F_NEXT ≠ 0 := by
    cases r.write <;> decide
  have hone : VRING_DESC_F_NEXT &&& VRING_DESC_F_NEXT ≠ 0 := by decide
  rw [free_chain_next NUM t hh hfh h.head hone]
  have hfm' : update t.free r.head true r.mid = false := by
    rw [update_of_ne hhm.symm, hfm]
  have hdm : update t.desc r.head ⟨.null, 0, 0, 0⟩ r.mid = _ :=
    (update_of_ne hhm.symm _ _).trans h.mid
  rw [show NUM = 7 + 1 from rfl, free_chain_next 7 _ hm hfm' hdm hflag]
  have hft' : update (update t.free r.head true) r.mid true r.tail = false := by
    rw [update_of_ne hmt.symm, update_of_ne hht.symm, hft]
  have hdt : update (update t.desc r.head ⟨.null, 0, 0, 0⟩) r.mid ⟨.null, 0, 0, 0⟩ r.tail
      = ⟨.status r.head, 1, VRING_DESC_F_WRITE, 0⟩ := by
    rw [update_of_ne hmt.symm, update_of_ne hht.symm, h.tail]
  have hlast : VRING_DESC_F_WRITE &&& VRING_DESC_F_NEXT = 0 := by decide
  refine ⟨_, free_chain_last 6 _ ht hft' hdt hlast, fun k => ?_, fun k hk => ?_⟩
  · show update (update (update t.free r.head true) r.mid true) r.tail true k = true ↔ _
    simp only [update_apply, DiskReq.descs, List.mem_cons, List.not_mem_nil, or_false]
    by_cases hkt : k = r.tail
    · simp only [hkt, if_true, or_true]
    · by_cases hkm : k = r.mid
      · simp only [hkm, hmt, if_true, if_false, true_or, or_true]
      · by_cases hkh : k = r.head
        · simp only [hkh, hht, hhm, if_true, if_false, true_or, or_true]
        · simp only [hkt, hkm, hkh, if_false, or_self, or_false]
  · simp only [DiskReq.descs, List.mem_cons, List.not_mem_nil, or_false, not_or] at hk
    show update (update (update t.desc r.head _) r.mid _) r.tail _ k = _
    rw [update_of_ne hk.2.2, update_of_ne hk.2.1, update_of_ne hk.1]

/-! ## §4. The rings. -/

namespace Virtq

/-- The entries from `k` on. -/
def since (v : Virtq) (k : UInt16) : List Nat := Lib.window v.ring 8 k.toNat (v.idx - k).toNat

theorem since_self {v : Virtq} {k : UInt16} (h : k = v.idx) : v.since k = [] := by
  unfold since
  rw [h, UInt16.sub_self]
  rfl

/-- **An entry written** joins the others at the end, wrapped or not. -/
theorem since_put (v : Virtq) (k : UInt16) (i : Nat) (hroom : (v.since k).length < 8) :
    (v.put i).since k = v.since k ++ [i] := by
  have hlen : (v.idx - k).toNat < 8 := by
    rwa [since, Lib.window_length] at hroom
  have hk := k.toNat_lt
  have hcount : (v.idx + 1 - k).toNat = (v.idx - k).toNat + 1 := by
    simp only [UInt16.toNat_sub, UInt16.toNat_add, UInt16.toNat_one] at *
    omega
  have hcell : v.idx.toNat % NUM = (k.toNat + (v.idx - k).toNat) % 8 := by
    simp only [UInt16.toNat_sub, NUM] at *
    omega
  show Lib.window (update v.ring (v.idx.toNat % NUM) i) 8 k.toNat (v.idx + 1 - k).toNat = _
  rw [hcount, hcell]
  exact Lib.window_push v.ring i hlen

/-- **The next entry** and those after it. -/
theorem since_next (v : Virtq) (k : UInt16) (hne : k ≠ v.idx) : v.since k = v.get k :: v.since (k + 1) := by
  have hidx := v.idx.toNat_lt
  have hk := k.toNat_lt
  have hneq : k.toNat ≠ v.idx.toNat := fun h => hne (UInt16.toNat_inj.mp h)
  have hcount : (v.idx - k).toNat = (v.idx - (k + 1)).toNat + 1 := by
    simp only [UInt16.toNat_sub, UInt16.toNat_add, UInt16.toNat_one] at *
    omega
  have hnext : (k.toNat + 1) % 8 = (k + 1).toNat % 8 := by
    simp only [UInt16.toNat_add, UInt16.toNat_one]
    omega
  rw [since, hcount, Lib.window_pop, Lib.window_congr _ _ hnext]
  rfl

end Virtq

end Xv6
