/-
  Xv6.Proc.Spaces — the address spaces of all processes (`fork`, `growproc`,
  `allocproc`, `freeproc`, `userinit` of `kernel/proc.c`, over the functions of
  `kernel/vm.c`, `kernel/kalloc.c`, `kernel/trap.c` and `kernel/exec.c`).

  A state of the system is physical memory with its counters, the address
  space of every process, and the pages the kernel keeps for itself.  The
  steps are the operations on address spaces, in any order and by any process.

  One invariant carries everything (`Inv`): every address space has its shape,
  and the references of all address spaces, with those of the kernel, are all
  the references there are.  Each operation exchanges the references of one
  process (`Moves`), so its step lemma is its own specification and the frame
  rule.

  Main results:
    * `fork_spec`                 — the references of two processes,
    * `Inv.step`, `Reachable.inv` — every run keeps the invariant,
    * `grows_or_stays`            — growing is all or nothing.
-/
import Xv6.Proc.Exec

namespace Xv6.Spaces

open Lib.Ref (own share cell_own cell)
open Function (update update_self update_of_ne)
open Multiset (mem_add mem_singleton_self)

/-! ## §1. The functions. -/

/-- The address space of a process. -/
structure Space where
  pagetable : Pagetable
  sz : Nat
  /-- the page of `p->trapframe` -/
  trapframe : Nat

section

variable (L : Layout)

/-- `allocproc()` in a slot that is free -/
def allocproc (km : Kmem) : Result (Kmem × Option Space) :=
  match kalloc km with
  | (km, none) => .ok (km, none)
  | (km, some tf) => do
      let (km, pt) ← Exec.proc_pagetable L km tf
      match pt with
      | none => do
          let km ← kfree L km tf
          .ok (km, none)
      | some pt => .ok (km, some ⟨pt, 0, tf⟩)

/-- `freeproc(p)` -/
def freeproc (km : Kmem) (sp : Space) : Result Kmem := do
  let km ← kfree L km sp.trapframe
  proc_freepagetable L km sp.pagetable sp.sz

/-- `growproc(n)` -/
def growproc (km : Kmem) (sp : Space) (n : Int) : Result (Kmem × Space × Int) :=
  if n > 0 then do
    let (km, pt, sz) ← uvmalloc L km sp.pagetable sp.sz (u64 (sp.sz + n.toNat)) PTE_W
    if sz = 0 then .ok (km, { sp with pagetable := pt }, -1)
    else .ok (km, { sp with pagetable := pt, sz := sz }, 0)
  else if n < 0 then do
    let (km, pt, sz) ← uvmdealloc L km sp.pagetable sp.sz (u64 (sp.sz + 2 ^ 64 - (-n).toNat))
    .ok (km, { sp with pagetable := pt, sz := sz }, 0)
  else .ok (km, sp, 0)

/-- `*(np->trapframe) = *(p->trapframe); np->trapframe->a0 = 0` -/
def copyFrame (km : Kmem) (child parent : Nat) : Kmem :=
  { km with mem := update km.mem child (Lib.setWords (km.mem parent) (· == 14) fun _ => 0) }

/-- `fork()`, the child in a slot that is free: the parent, the child if there is one, and -1 on failure. -/
def fork (km : Kmem) (parent : Space) : Result (Kmem × Space × Option Space × Int) := do
  let (km, np) ← allocproc L km
  match np with
  | none => .ok (km, parent, none, -1)
  | some np => do
      let (km, old, new, r) ← uvmcopy L km parent.pagetable np.pagetable parent.sz
      if r < 0 then
        let km ← freeproc L km { np with pagetable := new }
        .ok (km, { parent with pagetable := old }, none, -1)
      else
        .ok (copyFrame km np.trapframe parent.trapframe, { parent with pagetable := old },
          some { np with pagetable := new, sz := parent.sz }, 0)

/-- A store of user code: the hardware stores to a page with W, and faults otherwise. -/
def userStore (km : Kmem) (sp : Space) (va : Nat) (b : UInt8) : Result (Kmem × Space) :=
  if sp.pagetable.writable (va / PGSIZE) then
    .ok (km.write (sp.pagetable.flat (va / PGSIZE)).pa (va % PGSIZE) [b], sp)
  else do
    let (km, pt, _) ← storeFault L km sp.pagetable va
    .ok (km, { sp with pagetable := pt })

end

/-- The system: `proc` is the process table, `kernel` the pages of the kernel itself (its page table and stacks, pipes). -/
structure Sys where
  km : Kmem
  proc : Fin NPROC → Option Space
  kernel : List Nat

/-- The operations.  An operation of a slot that has no process does nothing. -/
inductive Op where
  | fork (p c : Fin NPROC)
  /-- `sbrk(n)` -/
  | sbrk (p : Fin NPROC) (n : Int)
  | exec (p : Fin NPROC) (fs : Exec.Fs) (upath uargv : Nat)
  /-- `wait` frees a process that has exited -/
  | reap (p : Fin NPROC)
  | store (p : Fin NPROC) (va : Nat) (b : UInt8)
  | copyout (p : Fin NPROC) (dstva : Nat) (src : List UInt8)
  /-- `pipealloc` -/
  | pipealloc
  /-- `pipeclose` of the pipe in a page -/
  | pipeclose (page : Nat)

/-- One process goes on with another address space. -/
def Sys.put (s : Sys) (km : Kmem) (p : Fin NPROC) (sp : Option Space) : Sys :=
  { s with km := km, proc := update s.proc p sp }

/-- What an operation does. -/
def step (L : Layout) (s : Sys) : Op → Result Sys
  | .fork p c =>
    match s.proc p, s.proc c with
    | some parent, none => do
        let (km, parent, child, _) ← fork L s.km parent
        .ok ((s.put km p (some parent)).put km c child)
    | _, _ => .ok s
  | .sbrk p n =>
    match s.proc p with
    | none => .ok s
    | some sp => do
        let (km, sp, _) ← growproc L s.km sp n
        .ok (s.put km p (some sp))
  | .exec p fs upath uargv =>
    match s.proc p with
    | none => .ok s
    | some sp => do
        let (s', _) ← Exec.sys_exec L ⟨s.km, ⟨sp.pagetable, sp.sz, sp.trapframe, []⟩, fs⟩ upath uargv
        .ok (s.put s'.km p (some ⟨s'.p.pagetable, s'.p.sz, s'.p.trapframe⟩))
  | .reap p =>
    match s.proc p with
    | none => .ok s
    | some sp => do
        let km ← freeproc L s.km sp
        .ok (s.put km p none)
  | .store p va b =>
    match s.proc p with
    | none => .ok s
    | some sp => do
        let (km, sp) ← userStore L s.km sp va b
        .ok (s.put km p (some sp))
  | .copyout p dstva src =>
    match s.proc p with
    | none => .ok s
    | some sp => do
        let (km, pt, _) ← copyout L s.km sp.pagetable dstva src
        .ok (s.put km p (some { sp with pagetable := pt }))
  | .pipealloc =>
    match kalloc s.km with
    | (km, none) => .ok { s with km := km }
    | (km, some page) => .ok { s with km := km, kernel := page :: s.kernel }
  | .pipeclose page =>
    if page ∈ s.kernel then do
      let km ← kfree L s.km page
      .ok { s with km := km, kernel := s.kernel.erase page }
    else .ok s

/-- `uchar initcode[]` -/
def initcode : List UInt8 :=
  [0x17, 0x05, 0x00, 0x00, 0x13, 0x05, 0x45, 0x02, 0x97, 0x05, 0x00, 0x00, 0x93, 0x85, 0x35, 0x02,
   0x93, 0x08, 0x70, 0x00, 0x73, 0x00, 0x00, 0x00, 0x93, 0x08, 0x20, 0x00, 0x73, 0x00, 0x00, 0x00,
   0xef, 0xf0, 0x9f, 0xff, 0x2f, 0x69, 0x6e, 0x69, 0x74, 0x00, 0x00, 0x24, 0x00, 0x00, 0x00, 0x00,
   0x00, 0x00, 0x00, 0x00]

/-- The pages that the kernel takes for its page table, its stacks and its devices before there is a process. -/
def kernelPages : Nat → Kmem → List Nat → Result (Kmem × List Nat)
  | 0, km, ks => .ok (km, ks)
  | n + 1, km, ks =>
    match kalloc km with
    | (_, none) => .error (.panic "kalloc")
    | (km, some page) => kernelPages n km (page :: ks)

/-- `p->trapframe->epc = 0; p->trapframe->sp = PGSIZE` -/
def initFrame (km : Kmem) (tf : Nat) : Kmem :=
  { km with mem := update km.mem tf (Lib.setWords (km.mem tf) (fun i => i == 3 || i == 6)
      fun i => if i = 3 then 0 else .ofNat PGSIZE) }

/-- `userinit()`: the first process, in the first slot. -/
def userinit (L : Layout) (km : Kmem) (ks : List Nat) : Result Sys := do
  let (km, p) ← allocproc L km
  match p with
  | none => .error .null
  | some p => do
      let (km, pt) ← uvmfirst km p.pagetable initcode
      .ok ⟨initFrame km p.trapframe, update (fun _ => none) 0 (some ⟨pt, PGSIZE, p.trapframe⟩), ks⟩

/-- From `kinit` to the first process; the kernel takes `n` pages for itself. -/
def boot (L : Layout) (ram : Nat → Page) (n : Nat) : Result Sys := do
  let km ← kinit L ram
  let (km, ks) ← kernelPages n km []
  userinit L km ks

/-- The states in which the first process starts.  Of the 1024 pages that the kernel image leaves, booting takes at most
1000. -/
def Booted (L : Layout) (s : Sys) : Prop := ∃ ram n, n ≤ 1000 ∧ boot L ram n = .ok s

/-! ## §2. One address space. -/

/-- Everything that belongs to a process. -/
def Space.refs (sp : Space) : Multiset PageRef := sp.pagetable.refs (npages sp.sz) + {own sp.trapframe}

/-- The address space has its shape. -/
structure Space.Good (L : Layout) (sp : Space) : Prop where
  shape : UserMap L sp.trapframe sp.pagetable.flat (npages sp.sz)
  small : sp.sz < 2 ^ 63

section Space

variable {L : Layout} {km : Kmem} {F R : Multiset PageRef} {tf n : Nat} {pt : Pagetable} {sp : Space}

/-- **`allocproc`**: an address space without user pages, or nothing. -/
theorem allocproc_spec (ho : km.Owns L R) : ∃ km', (allocproc L km = .ok (km', none) ∧ Moves L km km' 0 0 R)
      ∨ ∃ sp, allocproc L km = .ok (km', some sp) ∧ sp.sz = 0 ∧ sp.Good L ∧ Moves L km km' 0 sp.refs R
          ∧ sp.pagetable.tables.card ≤ 5 := by
  rcases kalloc_spec ho with ⟨hk, -⟩ | ⟨tf, km₁, hk, hmv₁, -⟩
  · refine ⟨km, .inl ⟨?_, Moves.refl (ho.of_eq (zero_add R))⟩⟩
    rw [allocproc, hk]
  obtain ⟨km₂, ⟨hpt, hmv₂⟩ | ⟨pt, hpt, hbuilt, hcard⟩⟩ := Exec.proc_pagetable_spec tf hmv₁.after
  · obtain ⟨km₃, hf, hmv₃⟩ := kfree_spec (hmv₂.after.of_eq (zero_add _).symm)
    rw [cell_own] at hf
    refine ⟨km₃, .inl ⟨?_, ?_⟩⟩
    · rw [allocproc, hk]
      dsimp only
      rw [hpt, Result.ok_bind]
      rw [hf, Result.ok_bind]
    · exact hmv₁.trans ((hmv₂.frame.of_eq (zero_add _).symm (zero_add _).symm rfl).trans hmv₃)
  · refine ⟨km₂, .inr ⟨⟨pt, 0, tf⟩, ?_, rfl, ⟨hbuilt.shape, Nat.two_pow_pos 63⟩, ?_, hcard⟩⟩
    · rw [allocproc, hk]
      dsimp only
      rw [hpt, Result.ok_bind]
    · exact hmv₁.trans (hbuilt.moves.frame.of_eq (zero_add _).symm rfl rfl)

/-- **`freeproc`** gives back everything. -/
theorem freeproc_spec (h : sp.Good L) (ho : km.Owns L (sp.refs + F)) :
    ∃ km', freeproc L km sp = .ok km' ∧ Moves L km km' sp.refs 0 F := by
  obtain ⟨km₁, hf, hmv₁⟩ := kfree_spec (r := own sp.trapframe) (R := sp.pagetable.refs (npages sp.sz) + F)
    (ho.of_eq (by rw [Space.refs]; abel))
  rw [cell_own] at hf
  obtain ⟨km₂, hpt, hmv₂⟩ := proc_freepagetable_spec h.shape (hmv₁.after.of_eq (zero_add _).symm)
  refine ⟨km₂, ?_, ?_⟩
  · rw [freeproc, hf, Result.ok_bind]
    exact hpt
  · exact (hmv₁.frame.of_eq (by rw [Space.refs]; abel) (zero_add _).symm rfl).trans hmv₂

/-- **`growproc`** with any argument. -/
theorem growproc_spec (h : sp.Good L) (ho : km.Owns L (sp.refs + F)) (k : Int) :
    ∃ km' sp' r, growproc L km sp k = .ok (km', sp', r) ∧ sp'.Good L ∧ sp'.trapframe = sp.trapframe
      ∧ Moves L km km' sp.refs sp'.refs F := by
  have hown : km.Owns L (sp.pagetable.refs (npages sp.sz) + ({own sp.trapframe} + F)) :=
    ho.of_eq (by rw [Space.refs]; abel)
  unfold growproc
  split
  · -- growing: the new pages come after the old ones
    obtain ⟨km', pt', r, hrun, hcase⟩ : ∃ km' pt' r, uvmalloc L km sp.pagetable sp.sz (u64 (sp.sz + k.toNat)) PTE_W
        = .ok (km', pt', r) ∧ _ := uvmalloc_spec rfl h.shape h.small hown
    rw [hrun, Result.ok_bind]
    dsimp only
    rcases hcase with ⟨-, rfl, rfl, rfl⟩ | ⟨hle, rfl, hsmall, hmv, hshape, hlow, -⟩ | ⟨-, rfl, hmv, hflat, -⟩
    · split
      · exact ⟨_, sp, -1, rfl, h, rfl, Moves.refl ho⟩
      · exact ⟨_, sp, 0, rfl, h, rfl, Moves.refl ho⟩
    · have hmono := npages_mono hle hsmall
      have hsplit : frames pt'.flat 0 (npages (u64 (sp.sz + k.toNat)))
          = frames sp.pagetable.flat 0 (npages sp.sz)
            + frames pt'.flat (npages sp.sz) (npages (u64 (sp.sz + k.toNat)) - npages sp.sz) := by
        have hadd := frames_add pt'.flat 0 (npages sp.sz) (npages (u64 (sp.sz + k.toNat)) - npages sp.sz)
        rw [Nat.zero_add, show npages sp.sz + (npages (u64 (sp.sz + k.toNat)) - npages sp.sz)
          = npages (u64 (sp.sz + k.toNat)) by omega] at hadd
        rw [hadd, frames_congr fun i _ hi => by rw [hlow i (by omega)]]
      have hmoves : Moves L km km' sp.refs (Space.refs ⟨pt', u64 (sp.sz + k.toNat), sp.trapframe⟩) F := by
        refine (hmv.of_eq rfl rfl (add_assoc _ _ _)).frame.of_eq ?_ ?_ rfl
        · rw [Space.refs, Pagetable.refs]
          abel
        · rw [Space.refs, Pagetable.refs, hsplit]
          abel
      split
      · rename_i hzero
        -- the new size is 0, and so was the old
        have hsz : sp.sz = u64 (sp.sz + k.toNat) := by omega
        refine ⟨km', { sp with pagetable := pt' }, -1, rfl, ?_, rfl, ?_⟩
        · refine ⟨?_, h.small⟩
          show UserMap L sp.trapframe pt'.flat (npages sp.sz)
          rw [hsz]
          exact hshape
        · rw [← hsz] at hmoves
          exact hmoves
      · exact ⟨km', _, 0, rfl, ⟨hshape, hsmall⟩, rfl, hmoves⟩
    · rw [if_pos rfl]
      refine ⟨km', { sp with pagetable := pt' }, -1, rfl, ⟨?_, h.small⟩, rfl, ?_⟩
      · show UserMap L sp.trapframe pt'.flat (npages sp.sz)
        rw [hflat]
        exact h.shape
      refine (hmv.of_eq rfl rfl (add_assoc _ _ _)).frame.of_eq ?_ ?_ rfl
      · rw [Space.refs, Pagetable.refs]
        abel
      · rw [Space.refs, Pagetable.refs]
        rw [hflat]
        abel
  split
  · -- shrinking: the pages above the new size go back
    obtain ⟨km', pt', r, hrun, hmin, hle, hmv, -, hflat, hshape⟩ :=
      uvmdealloc_spec sp.sz (u64 (sp.sz + 2 ^ 64 - (-k).toNat)) h.shape h.small hown
    have hsmall : r < 2 ^ 63 := by
      have := h.small
      omega
    rw [hrun, Result.ok_bind]
    refine ⟨km', ⟨pt', r, sp.trapframe⟩, 0, rfl, ⟨hshape, hsmall⟩, rfl, ?_⟩
    have hlow : frames pt'.flat 0 (npages r) = frames sp.pagetable.flat 0 (npages r) := by
      apply frames_congr
      intro i _ hi
      rw [hflat, clearRange, if_neg (by omega)]
    have hsplit := frames_add sp.pagetable.flat 0 (npages r) (npages sp.sz - npages r)
    rw [Nat.zero_add, show npages r + (npages sp.sz - npages r) = npages sp.sz by omega] at hsplit
    refine (hmv.of_eq rfl rfl (add_assoc _ _ _)).frame.of_eq ?_ ?_ rfl
    · rw [Space.refs, Pagetable.refs, hsplit]
      abel
    · rw [Space.refs, Pagetable.refs, hlow]
      abel
  · exact ⟨km, sp, 0, rfl, h, rfl, Moves.refl ho⟩

/-- `fork` finds a slot and `uvmcopy` fails: a `mappages` in it has found no page. -/
def copyFails (L : Layout) (km : Kmem) (parent : Space) : Bool :=
  match allocproc L km with
  | .ok (km, some np) =>
    match uvmcopy L km parent.pagetable np.pagetable parent.sz with
    | .ok (_, _, _, r) => decide (r < 0)
    | .error _ => false
  | _ => false

/-- The parent after `fork`: the pages below `j` are marked. -/
structure Marked (L : Layout) (km km' : Kmem) (sp sp' : Space) : Prop where
  good : sp'.Good L
  trapframe : sp'.trapframe = sp.trapframe
  sz : sp'.sz = sp.sz
  flat : ∃ j, sp'.pagetable.flat = markRange sp.pagetable.flat 0 j
  view : sp'.pagetable.view km' = sp.pagetable.view km

/-- **`fork`** on the references of parent and child.  A failed `uvmcopy` leaves a reference that nobody holds. -/
theorem fork_spec (h : sp.Good L) (ho : km.Owns L (sp.refs + F)) :
    (fork L km sp = .error .overflow ∧ ∃ pa, INT_MAX ≤ ((sp.refs + F).map cell).count pa + 2)
      ∨ ∃ km' sp' child r, fork L km sp = .ok (km', sp', child, r) ∧ Marked L km km' sp sp'
        ∧ ((child = none ∧ ∃ K, Moves L km km' sp.refs (sp'.refs + K) F ∧ (copyFails L km sp = false → K = 0))
          ∨ ∃ c, child = some c ∧ c.Good L ∧ c.sz = sp.sz ∧ Moves L km km' sp.refs (sp'.refs + c.refs) F
            ∧ (∀ i, i < npages sp.sz → c.pagetable.flat i = sp'.pagetable.flat i)
            ∧ c.pagetable.view km' = sp'.pagetable.view km') := by
  have hn : npages sp.sz = (sp.sz + (PGSIZE - 1)) / PGSIZE := npages_eq h.small
  obtain ⟨km₁, ⟨halloc, hmv₁⟩ | ⟨np, halloc, hsz, hnp, hmv₁, -⟩⟩ := allocproc_spec ho
  · -- no address space for the child
    have hmoves : Moves L km km₁ sp.refs (sp.refs + 0) F := hmv₁.frame.of_eq (zero_add _).symm (by abel) rfl
    have hview : sp.pagetable.view km₁ = sp.pagetable.view km := by
      refine view_same h.shape ?_ hmv₁.same
      rw [Space.refs, add_assoc]
      exact frames_sub_refs _ _ _
    refine .inr ⟨km₁, sp, none, -1, ?_, ⟨h, rfl, rfl, ⟨0, (markRange_self _ _).symm⟩, hview⟩,
      .inl ⟨rfl, 0, hmoves, fun _ => rfl⟩⟩
    rw [fork, halloc, Result.ok_bind]
  have hnp0 : UserMap L np.trapframe np.pagetable.flat 0 := by
    have hshape := hnp.shape
    rw [hsz, npages_zero] at hshape
    exact hshape
  have hnprefs : np.refs = np.pagetable.tables + {own np.trapframe} := by
    rw [Space.refs, hsz, npages_zero, Pagetable.refs, frames_zero, add_zero]
  have hstart : Moves L km km₁ sp.refs (np.pagetable.tables + {own np.trapframe} + sp.refs) F :=
    hmv₁.frame.of_eq (zero_add _).symm (by rw [hnprefs]) rfl
  have ho₂ : km₁.Owns L (frames sp.pagetable.flat 0 (npages sp.sz) + np.pagetable.tables
      + ({own np.trapframe} + sp.pagetable.tables + {own sp.trapframe} + F)) :=
    hstart.after.of_eq (by rw [Space.refs, Pagetable.refs]; abel)
  rcases uvmcopy_spec hn h.shape hnp0 ho₂ with ⟨hover, i, hi, hmax⟩ |
    ⟨km₂, old', new', r, j, hcopy, -, hflat, htab, hold', hmem, hcase⟩
  · refine .inl ⟨?_, (sp.pagetable.flat i).pa, ?_⟩
    · rw [fork, halloc, Result.ok_bind]
      dsimp only
      rw [hover, Result.error_bind]
    have hone : (({own np.trapframe} : Multiset PageRef).map cell).count (sp.pagetable.flat i).pa ≤ 1 := by
      rw [Multiset.map_singleton, Multiset.count_singleton]
      split <;> omega
    simp only [Space.refs, Pagetable.refs, Multiset.map_add, Multiset.count_add] at hmax hone ⊢
    push_cast at hmax ⊢
    omega
  right
  -- the pages of the parent, before anything else is written
  have hview₁ : sp.pagetable.view km₁ = sp.pagetable.view km := by
    refine view_same h.shape ?_ hmv₁.same
    rw [Space.refs, add_assoc]
    exact frames_sub_refs _ _ _
  have hview₂ : old'.view km₂ = sp.pagetable.view km := (view_marked h.shape hflat hmem).trans hview₁
  rcases hcase with ⟨rfl, rfl, hnew', heq, hmv₂⟩ | ⟨rfl, hnew', ⟨i, hi, hmv₂⟩, -⟩
  · -- the child has its pages
    have hmv₁₂ : Moves L km km₂ sp.refs
        (Space.refs ⟨old', sp.sz, sp.trapframe⟩ + Space.refs ⟨new', sp.sz, np.trapframe⟩) F := by
      refine hstart.trans ((hmv₂.of_eq rfl rfl rfl).frame.of_eq ?_ ?_ rfl)
      · rw [Space.refs, Pagetable.refs]
        abel
      · rw [Space.refs, Space.refs, Pagetable.refs, htab]
        abel
    have hmv₃ : Moves L km (copyFrame km₂ np.trapframe sp.trapframe) sp.refs
        (Space.refs ⟨old', sp.sz, sp.trapframe⟩ + Space.refs ⟨new', sp.sz, np.trapframe⟩) F :=
      hmv₁₂.overwrite (by simp [Space.refs])
    -- the trapframe of the child is no frame of the parent
    have hmem₃ : ∀ i, i < npages sp.sz →
        (copyFrame km₂ np.trapframe sp.trapframe).mem (old'.flat i).pa = km₂.mem (old'.flat i).pa := by
      intro i hi
      have hne : (old'.flat i).pa ≠ np.trapframe := by
        intro hpa
        have hown : km₂.Owns L ({own np.trapframe} + (old'.refs (npages sp.sz) + {own sp.trapframe}
            + new'.refs (npages sp.sz) + F)) := hmv₁₂.after.of_eq (by simp only [Space.refs]; abel)
        refine hown.alone ?_
        rw [← hpa, ← Pte.ref_cell]
        apply Multiset.mem_map_of_mem
        rw [add_assoc, add_assoc]
        exact frames_sub_refs _ _ _ _ (mem_frames.mpr ⟨i, Nat.zero_le i, by omega, rfl⟩)
      exact update_of_ne hne ..
    have hview₃ : old'.view (copyFrame km₂ np.trapframe sp.trapframe) = old'.view km₂ :=
      view_marked hold' (markRange_self old'.flat 0).symm hmem₃
    refine ⟨copyFrame km₂ np.trapframe sp.trapframe, ⟨old', sp.sz, sp.trapframe⟩,
      some ⟨new', sp.sz, np.trapframe⟩, 0, ?_, ⟨⟨hold', h.small⟩, rfl, rfl, ⟨_, hflat⟩, hview₃.trans hview₂⟩,
      .inr ⟨_, rfl, ⟨hnew', h.small⟩, rfl, hmv₃, heq, ?_⟩⟩
    · rw [fork, halloc, Result.ok_bind]
      dsimp only
      rw [hcopy, Result.ok_bind]
      rfl
    -- the two tables agree at the pages of the image, and have no other user pages
    funext a
    unfold Pagetable.view Pagetable.user
    by_cases ha : a / PGSIZE < npages sp.sz
    · rw [heq _ ha]
    have hno : ∀ {tf : Nat} {pt : Pagetable}, UserMap L tf pt.flat (npages sp.sz) →
        pt.user (a / PGSIZE) = false := by
      intro tf pt hpt
      by_contra hc
      exact ha (hpt.user_lt (Bool.not_eq_false _ ▸ hc))
    have h₁ := hno hnew'
    have h₂ := hno hold'
    unfold Pagetable.user at h₁ h₂
    rw [h₁, h₂]
    rfl
  · -- `uvmcopy` failed: the child is freed, and a reference is lost
    have hfails : copyFails L km sp = true := by
      rw [copyFails, halloc]
      dsimp only
      rw [hcopy]
      rfl
    have hchild : Space.Good L { np with pagetable := new' } := by
      refine ⟨?_, hnp.small⟩
      show UserMap L np.trapframe new'.flat (npages np.sz)
      rw [hsz, npages_zero]
      exact hnew'
    have hchildrefs : Space.refs { np with pagetable := new' } = new'.tables + {own np.trapframe} := by
      simp only [Space.refs, hsz, npages_zero, Pagetable.refs, frames_zero, add_zero]
    have hmv₁₂ : Moves L km km₂ sp.refs (Space.refs { np with pagetable := new' }
        + (Space.refs ⟨old', sp.sz, sp.trapframe⟩ + {share (sp.pagetable.flat i).pa})) F := by
      refine hstart.trans ((hmv₂.of_eq rfl rfl rfl).frame.of_eq ?_ ?_ rfl)
      · rw [Space.refs, Pagetable.refs]
        abel
      · rw [hchildrefs, Space.refs, Pagetable.refs, htab]
        abel
    obtain ⟨km₃, hfree, hmv₃⟩ := freeproc_spec hchild (hmv₁₂.after.of_eq (add_assoc _ _ _).symm)
    have hview₃ : old'.view km₃ = old'.view km₂ := by
      refine view_same hold' ?_ hmv₃.same
      intro r hr
      rw [Space.refs, add_assoc, add_assoc]
      exact frames_sub_refs _ _ _ _ hr
    refine ⟨km₃, ⟨old', sp.sz, sp.trapframe⟩, none, -1, ?_,
      ⟨⟨hold', h.small⟩, rfl, rfl, ⟨_, hflat⟩, hview₃.trans hview₂⟩, .inl ⟨rfl, {share (sp.pagetable.flat i).pa}, ?_, ?_⟩⟩
    · rw [fork, halloc, Result.ok_bind]
      dsimp only
      rw [hcopy, Result.ok_bind]
      dsimp only
      rw [if_pos (by decide), hfree, Result.ok_bind]
    · exact hmv₁₂.trans (hmv₃.frame.of_eq rfl (zero_add _).symm rfl)
    · intro hno
      rw [hfails] at hno
      cases hno

/-- **A store of user code.** -/
theorem userStore_spec (h : sp.Good L) (ho : km.Owns L (sp.refs + F)) (va : Nat) (b : UInt8) :
    ∃ km' sp', userStore L km sp va b = .ok (km', sp') ∧ sp'.Good L ∧ sp'.sz = sp.sz
      ∧ Moves L km km' sp.refs sp'.refs F ∧ Resolves sp.pagetable sp'.pagetable := by
  have hown : km.Owns L (sp.pagetable.refs (npages sp.sz) + ({own sp.trapframe} + F)) :=
    ho.of_eq (by rw [Space.refs]; abel)
  unfold userStore
  split
  · rename_i hw
    rw [Pagetable.writable, Bool.and_eq_true] at hw
    have hv := h.shape.user_lt hw.1
    have hcow : (sp.pagetable.flat (va / PGSIZE)).flags.cow = false := by
      by_contra hc
      have := h.shape.cow _ hv (Bool.not_eq_false _ ▸ hc)
      rw [hw.2] at this
      cases this
    refine ⟨_, sp, rfl, h, rfl, (Moves.refl ho).write ?_, .refl _⟩
    rw [Space.refs, mem_add]
    exact .inl (own_frame hv hcow)
  · obtain ⟨km', pt', r, hrun, hshape, hmv, -, hres, -⟩ := cowfault_moves h.shape hown va
    rw [storeFault, hrun, Result.ok_bind]
    exact ⟨km', { sp with pagetable := pt' }, rfl, ⟨hshape, h.small⟩, rfl, hmv.frame, hres⟩

end Space

/-! ## §3. The system. -/

/-- What a slot of the process table refers to. -/
def slotRefs (sp : Option Space) : Multiset PageRef := sp.elim 0 Space.refs

/-- The references of all processes but one. -/
def Sys.others (s : Sys) (p : Fin NPROC) : Multiset PageRef := ∑ q ∈ Finset.univ.erase p, slotRefs (s.proc q)

/-- The references of the kernel. -/
def Sys.kernelRefs (s : Sys) : Multiset PageRef := (s.kernel.map own : List PageRef)

/-- Every reference to every page that the system knows of. -/
def Sys.refs (s : Sys) : Multiset PageRef := ∑ p, slotRefs (s.proc p) + s.kernelRefs

/-- **The invariant.**  Every address space has its shape; the references of the processes and the kernel, and those in
`K`, which nobody holds any more, are all there are. -/
structure Inv (L : Layout) (K : Multiset PageRef) (s : Sys) : Prop where
  good : ∀ p sp, s.proc p = some sp → sp.Good L
  owns : s.km.Owns L (s.refs + K)

section Sys

variable {L : Layout} {K K' : Multiset PageRef} {s s' : Sys} {p c : Fin NPROC} {sp : Space} {km : Kmem}

theorem Sys.refs_split (s : Sys) (p : Fin NPROC) : s.refs = slotRefs (s.proc p) + s.others p + s.kernelRefs := by
  rw [Sys.refs, Sys.others, Finset.add_sum_erase _ (fun q => slotRefs (s.proc q)) (Finset.mem_univ p)]

theorem Sys.put_self (s : Sys) (km : Kmem) (p : Fin NPROC) (o : Option Space) : (s.put km p o).proc p = o :=
  update_self ..

theorem Sys.put_ne (s : Sys) (km : Kmem) {p q : Fin NPROC} (o : Option Space) (h : q ≠ p) :
    (s.put km p o).proc q = s.proc q := update_of_ne h ..

theorem Sys.others_put (s : Sys) (km : Kmem) (p : Fin NPROC) (o : Option Space) : (s.put km p o).others p = s.others p := by
  apply Finset.sum_congr rfl
  intro q hq
  rw [Sys.put_ne _ _ _ (Finset.ne_of_mem_erase hq)]

/-- After one process has changed. -/
theorem Sys.refs_put (s : Sys) (km : Kmem) (p : Fin NPROC) (o : Option Space) :
    (s.put km p o).refs = slotRefs o + s.others p + s.kernelRefs := by
  rw [Sys.refs_split _ p, Sys.others_put, Sys.put_self]
  rfl

/-- The part of the process, and the frame of its operations. -/
theorem Inv.own (h : Inv L K s) (hp : s.proc p = some sp) :
    sp.Good L ∧ s.km.Owns L (sp.refs + (s.others p + s.kernelRefs + K)) := by
  refine ⟨h.good p sp hp, h.owns.of_eq ?_⟩
  rw [s.refs_split p, hp]
  show sp.refs + (s.others p + s.kernelRefs + K) = sp.refs + s.others p + s.kernelRefs + K
  abel

/-- **One process changes.** -/
theorem Inv.put {o : Option Space} (h : Inv L K s) (hgood : ∀ sp, o = some sp → sp.Good L)
    (ho : km.Owns L (slotRefs o + (s.others p + s.kernelRefs + K'))) : Inv L K' (s.put km p o) := by
  refine ⟨fun q sq hq => ?_, ho.of_eq ?_⟩
  · by_cases hqp : q = p
    · rw [hqp, Sys.put_self] at hq
      exact hgood sq hq
    · rw [Sys.put_ne _ _ _ hqp] at hq
      exact h.good q sq hq
  · rw [Sys.refs_put]
    abel

/-- The operation is a `fork` in which a `mappages` of `uvmcopy` fails. -/
def forkFails (L : Layout) (s : Sys) : Op → Bool
  | .fork p c =>
    match s.proc p, s.proc c with
    | some parent, none => copyFails L s.km parent
    | _, _ => false
  | _ => false

theorem Inv.fork (h : Inv L K s) (p c : Fin NPROC) :
    (step L s (.fork p c) = .error .overflow ∧ ∃ pa, INT_MAX ≤ ((s.refs + K).map cell).count pa + 2)
      ∨ ∃ s' K', step L s (.fork p c) = .ok s' ∧ Inv L K' s' ∧ (forkFails L s (.fork p c) = false → K' = K) := by
  rw [step]
  cases hp : s.proc p with
  | none => exact .inr ⟨s, K, rfl, h, fun _ => rfl⟩
  | some sp =>
    cases hc : s.proc c with
    | some sc => exact .inr ⟨s, K, rfl, h, fun _ => rfl⟩
    | none =>
      dsimp only
      obtain ⟨hgood, hown⟩ := h.own hp
      have hne : c ≠ p := by
        rintro rfl
        rw [hp] at hc
        cases hc
      rcases fork_spec hgood hown with ⟨hover, pa, hmax⟩ | ⟨km', sp', child, r, hrun, hmarked, hcase⟩
      · refine .inl ⟨by rw [hover, Result.error_bind], pa, ?_⟩
        have hrefs : sp.refs + (s.others p + s.kernelRefs + K) = s.refs + K := by
          rw [s.refs_split p, hp]
          show sp.refs + (s.others p + s.kernelRefs + K) = sp.refs + s.others p + s.kernelRefs + K
          abel
        rw [hrefs] at hmax
        exact hmax
      right
      rw [hrun, Result.ok_bind]
      rcases hcase with ⟨rfl, K₁, hmv, hK⟩ | ⟨ch, rfl, hch, -, hmv, -⟩
      · -- the slot of the child stays free
        have h₁ : Inv L (K₁ + K) (s.put km' p (some sp')) := by
          refine h.put (fun _ hsp => Option.some.inj hsp ▸ hmarked.good) (hmv.after.of_eq ?_)
          show sp'.refs + _ = _
          abel
        have hnone : (s.put km' p (some sp')).proc c = none := (Sys.put_ne _ _ _ hne).trans hc
        refine ⟨_, K₁ + K, rfl, ?_, fun hno => ?_⟩
        · have hput : (s.put km' p (some sp')).put km' c none = s.put km' p (some sp') := by
            rw [Sys.put, ← hnone, Function.update_eq_self]
            rfl
          rw [hput]
          exact h₁
        · rw [forkFails, hp, hc] at hno
          rw [hK hno, zero_add]
      · have h₁ : Inv L (ch.refs + K) (s.put km' p (some sp')) := by
          refine h.put (fun _ hsp => Option.some.inj hsp ▸ hmarked.good) (hmv.after.of_eq ?_)
          show sp'.refs + _ = _
          abel
        have hnone : (s.put km' p (some sp')).proc c = none := (Sys.put_ne _ _ _ hne).trans hc
        refine ⟨_, K, rfl, ?_, fun _ => rfl⟩
        refine h₁.put (fun _ hsp => Option.some.inj hsp ▸ hch) (h₁.owns.of_eq ?_)
        rw [Sys.refs_split _ c, hnone]
        show ch.refs + _ = 0 + _ + _ + _
        abel

/-- What an operation of one process leaves, the others being the frame. -/
theorem Inv.one {o : Option Space} {F : Multiset PageRef} (h : Inv L K s) (hgood : ∀ sp, o = some sp → sp.Good L)
    (hmv : Moves L s.km km F (slotRefs o) (s.others p + s.kernelRefs + K)) : Inv L K (s.put km p o) :=
  h.put hgood hmv.after

/-- **The operations other than `fork`** return and keep the invariant. -/
theorem Inv.step_one (h : Inv L K s) (op : Op) (hop : ∀ p c, op ≠ .fork p c) :
    ∃ s', step L s op = .ok s' ∧ Inv L K s' := by
  cases op with
  | fork p c => exact absurd rfl (hop p c)
  | sbrk p n =>
    rw [step]
    cases hp : s.proc p with
    | none => exact ⟨s, rfl, h⟩
    | some sp =>
      obtain ⟨hgood, hown⟩ := h.own hp
      obtain ⟨km, sp', r, hrun, hgood', -, hmv⟩ := growproc_spec hgood hown n
      dsimp only
      rw [hrun, Result.ok_bind]
      exact ⟨_, rfl, h.one (fun _ hsp => Option.some.inj hsp ▸ hgood') hmv⟩
  | exec p fs upath uargv =>
    rw [step]
    cases hp : s.proc p with
    | none => exact ⟨s, rfl, h⟩
    | some sp =>
      obtain ⟨hgood, hown⟩ := h.own hp
      obtain ⟨s', r, hrun, hcase⟩ := Exec.sys_exec_spec
        (s := ⟨s.km, ⟨sp.pagetable, sp.sz, sp.trapframe, []⟩, fs⟩)
        (F := {Lib.Ref.own sp.trapframe} + (s.others p + s.kernelRefs + K)) hgood.shape
        (hown.of_eq (by rw [Space.refs]; abel)) upath uargv
      dsimp only
      rw [hrun, Result.ok_bind]
      refine ⟨_, rfl, ?_⟩
      rcases hcase with ⟨-, hp', -, hmv⟩ | ⟨-, hnew⟩
      · -- the process has the image it had
        rw [hp']
        refine h.put (fun _ hsp => Option.some.inj hsp ▸ hgood) (hmv.after.of_eq ?_)
        show sp.refs + _ = _
        rw [Space.refs]
        abel
      · refine h.put (fun _ hsp => Option.some.inj hsp ▸ ⟨hnew.shape, hnew.small⟩) (hnew.owns.of_eq ?_)
        show Space.refs _ + _ = _
        rw [Space.refs, hnew.trapframe]
        abel
  | reap p =>
    rw [step]
    cases hp : s.proc p with
    | none => exact ⟨s, rfl, h⟩
    | some sp =>
      obtain ⟨hgood, hown⟩ := h.own hp
      obtain ⟨km, hrun, hmv⟩ := freeproc_spec hgood hown
      dsimp only
      rw [hrun, Result.ok_bind]
      exact ⟨_, rfl, h.one (fun _ hsp => (nomatch hsp)) hmv⟩
  | store p va b =>
    rw [step]
    cases hp : s.proc p with
    | none => exact ⟨s, rfl, h⟩
    | some sp =>
      obtain ⟨hgood, hown⟩ := h.own hp
      obtain ⟨km, sp', hrun, hgood', -, hmv, -⟩ := userStore_spec hgood hown va b
      dsimp only
      rw [hrun, Result.ok_bind]
      exact ⟨_, rfl, h.one (fun _ hsp => Option.some.inj hsp ▸ hgood') hmv⟩
  | copyout p dstva src =>
    rw [step]
    cases hp : s.proc p with
    | none => exact ⟨s, rfl, h⟩
    | some sp =>
      obtain ⟨hgood, hown⟩ := h.own hp
      obtain ⟨km, pt', r, hrun, hshape, hmv, -⟩ := copyout_moves hgood.shape
        (F := {Lib.Ref.own sp.trapframe} + (s.others p + s.kernelRefs + K)) (hown.of_eq (by rw [Space.refs]; abel)) dstva src
      dsimp only
      rw [hrun, Result.ok_bind]
      exact ⟨_, rfl, h.one (fun _ hsp => Option.some.inj hsp ▸ ⟨hshape, hgood.small⟩) hmv.frame⟩
  | pipealloc =>
    rw [step]
    rcases kalloc_spec h.owns with ⟨hk, -⟩ | ⟨page, km, hk, hmv, -⟩
    · rw [hk]
      exact ⟨s, rfl, h⟩
    · rw [hk]
      refine ⟨_, rfl, h.good, hmv.after.of_eq ?_⟩
      show ∑ p, slotRefs (s.proc p) + ({Lib.Ref.own page} + s.kernelRefs) + K = {Lib.Ref.own page} + (s.refs + K)
      rw [Sys.refs]
      abel
  | pipeclose page =>
    rw [step]
    split
    · rename_i hin
      have hkernel : s.kernelRefs = {Lib.Ref.own page} + ((s.kernel.erase page).map Lib.Ref.own : List PageRef) := by
        have hperm := (List.perm_cons_erase hin).map Lib.Ref.own
        exact Multiset.coe_eq_coe.mpr hperm
      obtain ⟨km, hf, hmv⟩ := kfree_spec (r := Lib.Ref.own page)
        (R := ∑ p, slotRefs (s.proc p) + ((s.kernel.erase page).map Lib.Ref.own : List PageRef) + K)
        (h.owns.of_eq (by rw [Sys.refs, hkernel]; abel))
      rw [cell_own] at hf
      rw [hf, Result.ok_bind]
      exact ⟨_, rfl, h.good, hmv.after.of_eq (zero_add _).symm⟩
    · exact ⟨s, rfl, h⟩

/-- **One step.**  The only way to stop is an overflow of a counter; the references that nobody holds become more only
where a `fork` fails in `uvmcopy`. -/
theorem Inv.step (h : Inv L K s) (op : Op) :
    (step L s op = .error .overflow ∧ ∃ pa, INT_MAX ≤ ((s.refs + K).map cell).count pa + 2)
      ∨ ∃ s' K', step L s op = .ok s' ∧ Inv L K' s' ∧ (forkFails L s op = false → K' = K) := by
  by_cases hop : ∃ p c, op = .fork p c
  · obtain ⟨p, c, rfl⟩ := hop
    exact h.fork p c
  · obtain ⟨s', hrun, h'⟩ := h.step_one op fun p c heq => hop ⟨p, c, heq⟩
    exact .inr ⟨s', K, hrun, h', fun _ => rfl⟩

end Sys

/-! ## §4. Booting. -/

section Boot

variable {L : Layout} {km : Kmem} {R : Multiset PageRef}

/-- The pages that the image leaves. -/
theorem enough_pages (L : Layout) : 1023 ≤ L.pages.card := by
  have hinj : Function.Injective fun i : Nat => PGROUNDUP L.kend + i * PGSIZE := by
    intro i j hij
    simp only [PGSIZE] at hij
    omega
  calc 1023 = ((Finset.range 1023).image fun i => PGROUNDUP L.kend + i * PGSIZE).card := by
        rw [Finset.card_image_of_injective _ hinj, Finset.card_range]
    _ ≤ L.pages.card := by
        apply Finset.card_le_card
        intro pa hpa
        obtain ⟨i, hi, rfl⟩ := Finset.mem_image.mp hpa
        have hroom := L.room
        rw [Finset.mem_range] at hi
        rw [L.mem_pages]
        simp only [PGROUNDUP, u64, PGSIZE, PHYSTOP] at hroom ⊢
        omega

/-- The pages of the kernel are its own. -/
theorem kernelPages_spec (n : Nat) : ∀ {km km' : Kmem} {ks ks' : List Nat}, km.Owns L (ks.map own : List PageRef) →
    kernelPages n km ks = .ok (km', ks') → km'.Owns L (ks'.map own : List PageRef) ∧ ks'.length = ks.length + n := by
  induction n with
  | zero =>
    intro km km' ks ks' ho hrun
    cases hrun
    exact ⟨ho, rfl⟩
  | succ n ih =>
    intro km km' ks ks' ho hrun
    rw [kernelPages] at hrun
    rcases kalloc_spec ho with ⟨hk, -⟩ | ⟨page, km₁, hk, hmv, -⟩
    · rw [hk] at hrun
      cases hrun
    · rw [hk] at hrun
      have hpage : km₁.Owns L ((page :: ks).map own : List PageRef) := hmv.after
      obtain ⟨ho', hlen⟩ := ih hpage hrun
      exact ⟨ho', by rw [hlen, List.length_cons]; omega⟩

/-- **`uvmfirst`** maps the first page, if there are two pages for tables. -/
theorem uvmfirst_spec {tf : Nat} {pt : Pagetable} {km' : Kmem} {pt' : Pagetable} {src : List UInt8}
    (h : UserMap L tf pt.flat 0) (ho : km.Owns L (pt.tables + R))
    (hroom : pt.tables.card + R.card + 3 < L.pages.card) (hrun : uvmfirst km pt src = .ok (km', pt')) :
    UserMap L tf pt'.flat 1 ∧ Moves L km km' pt.tables (pt'.refs 1) R := by
  unfold uvmfirst at hrun
  split at hrun
  · cases hrun
  rcases kalloc_spec ho with ⟨hk, -⟩ | ⟨mem, km₁, hk, hmv₁, -⟩
  · rw [hk] at hrun
    cases hrun
  rw [hk] at hrun
  have hmv₂ : Moves L km (km₁.memset mem 0) 0 {own mem} (pt.tables + R) :=
    hmv₁.overwrite (mem_singleton_self _)
  have hfree : (pt.flat (0 / PGSIZE)).flags.v = false := by
    rw [Nat.zero_div, h.rest 0 (Nat.le_refl 0) (by decide) (by decide)]
    rfl
  obtain ⟨km₃, pt₃, r, hmap, hmv₃, hcard, hcase⟩ := mappages_page_spec (L := L) (F := {own mem} + R) mem
    (PTE_W ||| PTE_R ||| PTE_X ||| PTE_U) rfl (by decide) hfree (hmv₂.after.of_eq (by abel))
  dsimp only at hrun
  rw [hmap, Result.ok_bind] at hrun
  cases hrun
  rcases hcase with ⟨-, hflat⟩ | ⟨-, -, hempty⟩
  · have hnew := h.grow mem (PTE_W ||| PTE_R ||| PTE_X ||| PTE_U) rfl (fun hc => (nomatch hc)) (by decide)
      (Multiset.notMem_zero mem)
    rw [Nat.zero_div] at hflat
    rw [← hflat] at hnew
    have hframes : pt₃.refs 1 = pt₃.tables + {own mem} := by
      have hone : frames pt₃.flat 0 1 = {(pt₃.flat 0).ref} := rfl
      rw [Pagetable.refs, hone, hflat, update_self]
      rfl
    refine ⟨hnew, Moves.write ?_ ?_⟩
    · rw [hframes]
      refine hmv₂.seq hmv₃ pt.tables {own mem} rfl rfl (add_comm _ _) (zero_add _).symm rfl
    · rw [hframes]
      exact Multiset.mem_add.mpr (.inr (mem_singleton_self _))
  · -- the tables would have used up all pages
    have hfull := hmv₃.after.exhausted hempty
    rw [Multiset.card_add, Multiset.card_add, Multiset.card_singleton] at hfull
    omega

/-- **At the start** there is one process, of one page. -/
theorem Booted.inv {s : Sys} (h : Booted L s) : Inv L 0 s := by
  obtain ⟨ram, n, hn, hrun⟩ := h
  obtain ⟨km₀, hinit, ho₀⟩ := kinit_spec L ram
  rw [boot, hinit, Result.ok_bind] at hrun
  obtain ⟨⟨km₁, ks⟩, hker, hrun⟩ := Lib.bind_ok hrun
  have hnone : km₀.Owns L (([] : List Nat).map own : List PageRef) := ho₀
  obtain ⟨ho₁, hlen⟩ := kernelPages_spec n hnone hker
  change userinit L km₁ ks = .ok s at hrun
  unfold userinit at hrun
  obtain ⟨km₂, ⟨halloc, -⟩ | ⟨np, halloc, hsz, hgood, hmv₂, hcard⟩⟩ := allocproc_spec ho₁
  · rw [halloc] at hrun
    cases hrun
  rw [halloc, Result.ok_bind] at hrun
  obtain ⟨⟨km₃, pt₃⟩, hfirst, hrun⟩ := Lib.bind_ok hrun
  cases hrun
  have hshape := hgood.shape
  rw [hsz, npages_zero] at hshape
  have hrefs : np.refs = np.pagetable.tables + {own np.trapframe} := by
    rw [Space.refs, hsz, npages_zero, Pagetable.refs, frames_zero, add_zero]
  obtain ⟨hshape₃, hmv₃⟩ := uvmfirst_spec (R := {own np.trapframe} + (ks.map own : List PageRef)) hshape
    (hmv₂.after.of_eq (by rw [hrefs]; abel))
    (by
      have hpages := enough_pages L
      rw [Multiset.card_add, Multiset.card_singleton, Multiset.coe_card, List.length_map, hlen, List.length_nil]
      omega) hfirst
  have hone : npages PGSIZE = 1 := by decide
  have hmv₄ : Moves L km₂ (initFrame km₃ np.trapframe) (np.pagetable.tables + {own np.trapframe})
      (pt₃.refs 1 + {own np.trapframe}) (ks.map own : List PageRef) :=
    hmv₃.frame.overwrite (by simp)
  -- the pages are there before the process is
  have hempty : Inv L (pt₃.refs 1 + {own np.trapframe}) ⟨initFrame km₃ np.trapframe, fun _ => none, ks⟩ := by
    refine ⟨by simp, hmv₄.after.of_eq ?_⟩
    have hnone : ∑ p : Fin NPROC, slotRefs none = 0 := Finset.sum_eq_zero fun q _ => rfl
    show ∑ p : Fin NPROC, slotRefs none + (ks.map own : List PageRef) + _ = _
    rw [hnone]
    abel
  refine hempty.put (fun sp hsp => Option.some.inj hsp ▸ ⟨?_, ?_⟩) (hempty.owns.of_eq ?_)
  · rw [hone]
    exact hshape₃
  · show PGSIZE < 2 ^ 63
    decide
  · rw [Sys.refs_split _ 0]
    show Space.refs _ + _ = 0 + _ + _ + _
    rw [Space.refs, hone]
    abel

end Boot

/-! ## §5. Runs. -/

section Runs

variable {L : Layout} {s : Sys}

/-- The states that any sequence of operations leads to. -/
def Reachable (L : Layout) (s : Sys) : Prop := Lib.Reach (Booted L) (fun _ _ => True) (step L) s

/-- The same where no `mappages` in `uvmcopy` fails. -/
def ReachableNoFail (L : Layout) (s : Sys) : Prop :=
  Lib.Reach (Booted L) (fun s op => forkFails L s op = false) (step L) s

theorem Reachable.inv (h : Reachable L s) : ∃ K, Inv L K s := by
  refine Lib.Reach.invariant (I := fun s => ∃ K, Inv L K s) (fun s hs => ⟨0, hs.inv⟩) ?_ h
  intro s op s' hinv _ hrun
  obtain ⟨K, hinv⟩ := hinv
  rcases hinv.step op with ⟨herr, -⟩ | ⟨s₁, K', hok, hinv', -⟩
  · rw [herr] at hrun
    cases hrun
  · rw [hok] at hrun
    cases hrun
    exact ⟨K', hinv'⟩

theorem ReachableNoFail.inv (h : ReachableNoFail L s) : Inv L 0 s := by
  refine Lib.Reach.invariant (I := Inv L 0) (fun s hs => hs.inv) ?_ h
  intro s op s' hinv hnofail hrun
  rcases hinv.step op with ⟨herr, -⟩ | ⟨s₁, K', hok, hinv', hK⟩
  · rw [herr] at hrun
    cases hrun
  · rw [hok] at hrun
    cases hrun
    exact hK hnofail ▸ hinv'

theorem ReachableNoFail.reachable (h : ReachableNoFail L s) : Reachable L s := by
  induction h with
  | start hs => exact .start hs
  | next _ _ hrun ih => exact .next ih trivial hrun

/-- The slot of the first process. -/
def firstSlot : Fin NPROC := 0

/-- The slot of its child. -/
def secondSlot : Fin NPROC := 1

/-- A test of the state that the small machine boots into. -/
theorem booted_of_test (test : Sys → Bool) (h : (boot Layout.small (fun _ _ => 0) 3).toOption.any test = true) :
    ∃ s, Booted Layout.small s ∧ test s = true := by
  cases hboot : boot Layout.small (fun _ _ => 0) 3 with
  | error e =>
    rw [hboot] at h
    cases h
  | ok s =>
    rw [hboot] at h
    exact ⟨s, ⟨_, 3, by decide, hboot⟩, h⟩

/-- The first process forks and stores to its page: two processes, of which one has a frame of its own. -/
theorem forked_reachable :
    ∃ s sp sc, ReachableNoFail Layout.small s ∧ s.proc firstSlot = some sp ∧ s.proc secondSlot = some sc
      ∧ sp.pagetable.writable 0 = true ∧ (sc.pagetable.flat 0).flags.cow = true := by
  obtain ⟨s₀, hstart, hrun⟩ := booted_of_test (fun s =>
    Lib.reaches (fun s op => forkFails Layout.small s op = false) (step Layout.small) s
      [.fork firstSlot secondSlot, .store firstSlot 4 7]
      fun s => (s.proc firstSlot).any (fun sp => sp.pagetable.writable 0)
        && (s.proc secondSlot).any fun sc => (sc.pagetable.flat 0).flags.cow) (by decide +kernel)
  obtain ⟨s, hs, hend⟩ := Lib.Reach.of_reaches _ _ hstart hrun
  obtain ⟨hparent, hchild⟩ := Bool.and_eq_true_iff.mp hend
  obtain ⟨sp, hp, hw⟩ := (Option.any_eq_true ..).mp hparent
  obtain ⟨sc, hc, hcow⟩ := (Option.any_eq_true ..).mp hchild
  exact ⟨s, sp, sc, hs, hp, hc, hw, hcow⟩

end Runs

/-! ## §6. Growing. -/

section Grow

variable {L : Layout} {km : Kmem} {F : Multiset PageRef} {tf : Nat} {pt : Pagetable}

/-- The pages from `n` up to `m` are new, each in a zeroed frame of its own, and nothing else has changed. -/
structure Extended (km' : Kmem) (pt pt' : Pagetable) (n m : Nat) (perm : Flags) : Prop where
  old : ∀ v, v < n ∨ m ≤ v → pt'.flat v = pt.flat v
  new : ∀ v, n ≤ v → v < m → pt.flat v = Pte.zero ∧ (pt'.flat v).flags = perm ∧ km'.mem (pt'.flat v).pa = fun _ => 0
  inj : ∀ v w, v < m → w < m → (pt'.flat v).pa = (pt'.flat w).pa → v = w

/-- Nothing has changed but for tables added, and freeing the address space frees these too. -/
structure Undone (L : Layout) (km km' : Kmem) (pt pt' : Pagetable) (sz : Nat) (F : Multiset PageRef) : Prop where
  flat : pt'.flat = pt.flat
  tables : pt.tables ≤ pt'.tables
  counts : ∀ a ∈ L.pages, a ∉ (pt'.tables - pt.tables).map cell →
    km'.num_ref_to_page (a / PGSIZE) = km.num_ref_to_page (a / PGSIZE)
  freed : ∃ km'', proc_freepagetable L km' pt' sz = .ok km'' ∧ km''.Owns L F

theorem Undone.of_moves {km' : Kmem} {pt' : Pagetable} {sz : Nat} (h : UserMap L tf pt.flat (npages sz)) (hflat : pt'.flat = pt.flat)
    (htab : pt.tables ≤ pt'.tables) (hmv : Moves L km km' pt.tables pt'.tables (frames pt.flat 0 (npages sz) + F)) :
    Undone L km km' pt pt' sz F := by
  refine ⟨hflat, htab, fun a ha hnot => ?_, ?_⟩
  · have hbefore := hmv.before.tracks.cnt_eq a ha
    have hafter := hmv.after.tracks.cnt_eq a ha
    rw [← tsub_add_cancel_of_le htab, Multiset.map_add, Multiset.map_add, Multiset.count_add, Multiset.count_add,
      Multiset.count_eq_zero_of_notMem hnot, Nat.zero_add, ← Multiset.count_add, ← Multiset.map_add] at hafter
    exact hafter.trans hbefore.symm
  · obtain ⟨km'', hrun, hfree⟩ := proc_freepagetable_spec (F := F) (hflat ▸ h) (hmv.after.of_eq (by
      rw [Pagetable.refs, hflat, add_assoc]))
    exact ⟨km'', hrun, hfree.after.of_eq (zero_add F).symm⟩

/-- How `uvmalloc` ends. -/
def AllOrNothing (L : Layout) (km km' : Kmem) (pt pt' : Pagetable) (oldsz newsz r : Nat) (xperm : Flags)
    (F : Multiset PageRef) : Prop :=
  (newsz < oldsz ∧ r = oldsz ∧ km' = km ∧ pt' = pt)
    ∨ (oldsz ≤ newsz ∧ r = newsz
      ∧ Extended km' pt pt' (npages oldsz) (npages newsz) (PTE_R ||| PTE_U ||| xperm ||| PTE_V))
    ∨ (oldsz ≤ newsz ∧ r = 0 ∧ Undone L km km' pt pt' oldsz F)

/-- **Growing is all or nothing**: `uvmalloc` maps all the pages of the new size that are missing, or none; `growproc` has
the new size in the first case and the old one in the second. -/
theorem grows_or_stays {oldsz : Nat} (h : UserMap L tf pt.flat (npages oldsz)) (hsz : oldsz < 2 ^ 63)
    (ho : km.Owns L (pt.refs (npages oldsz) + F)) :
    (∀ newsz xperm, xperm.cow = false → ∃ km' pt' r, uvmalloc L km pt oldsz newsz xperm = .ok (km', pt', r)
      ∧ AllOrNothing L km km' pt pt' oldsz newsz r xperm F)
      ∧ ∀ n : Int, 0 < n → n < 2 ^ 31 → ∃ km' sp' r, growproc L km ⟨pt, oldsz, tf⟩ n = .ok (km', sp', r)
        ∧ ((r = 0 ∧ (sp'.sz : Int) = oldsz + n
            ∧ Extended km' pt sp'.pagetable (npages oldsz) (npages sp'.sz) (PTE_R ||| PTE_U ||| PTE_W ||| PTE_V))
          ∨ (r = -1 ∧ sp'.sz = oldsz ∧ Undone L km km' pt sp'.pagetable oldsz F)) := by
  have halloc : ∀ newsz xperm, xperm.cow = false → ∃ km' pt' r, uvmalloc L km pt oldsz newsz xperm = .ok (km', pt', r)
      ∧ AllOrNothing L km km' pt pt' oldsz newsz r xperm F := by
    intro newsz xperm hx
    obtain ⟨km', pt', r, hrun, hcase⟩ := @uvmalloc_spec L km F tf pt xperm oldsz newsz hx h hsz ho
    refine ⟨km', pt', r, hrun, ?_⟩
    rcases hcase with hless | ⟨hle, hr, hsmall, -, hmap, hlow, hnew⟩ | ⟨hle, hr, hmv, hflat, -⟩
    · exact .inl hless
    · refine .inr (.inl ⟨hle, hr, fun v hv => ?_, fun v hv hv' => ⟨?_, hnew v hv hv'⟩, fun v w => frames_inj hmap.nodup⟩)
      · have hmono := npages_mono hle hsmall
        rcases hv with hv | hv
        · exact hlow v hv
        · exact h.agree hmap (by omega) hv
      · have hbound := hmap.bound
        exact h.rest v hv (by omega) (by simp only [TRAPFRAMEVPN, TRAMPOLINEVPN] at *; omega)
    -- the loop has only added tables
    refine .inr (.inr ⟨hle, hr, .of_moves h hflat ?_ hmv⟩)
    unfold uvmalloc at hrun
    split at hrun
    · cases hrun
      exact le_rfl
    · obtain ⟨⟨km₁, pt₁, b⟩, hloop, hrun⟩ := Lib.bind_ok hrun
      cases hrun
      exact uvmallocLoop_tables _ hloop
  refine ⟨halloc, fun n hpos hlt => ?_⟩
  have hnew : u64 (oldsz + n.toNat) = oldsz + n.toNat := by
    simp only [u64]
    omega
  obtain ⟨km', pt', r, hrun, hcase⟩ := halloc (oldsz + n.toNat) PTE_W rfl
  rw [growproc, if_pos hpos, hnew]
  rw [hrun, Result.ok_bind]
  dsimp only
  rcases hcase with ⟨hless, -⟩ | ⟨-, rfl, hext⟩ | ⟨-, rfl, hund⟩
  · omega
  · rw [if_neg (by omega)]
    exact ⟨km', _, 0, rfl, .inl ⟨rfl, by dsimp only; omega, hext⟩⟩
  · rw [if_pos rfl]
    exact ⟨km', _, -1, rfl, .inr ⟨rfl, rfl, hund⟩⟩

theorem grows_or_stays_forked : ∃ km pt F tf sz, UserMap Layout.small tf pt.flat (npages sz) ∧ sz < 2 ^ 63
    ∧ km.Owns Layout.small (pt.refs (npages sz) + F) ∧ ∀ newsz, ∃ km' pt' r, uvmalloc Layout.small km pt sz newsz PTE_W = .ok (km', pt', r)
      ∧ AllOrNothing Layout.small km km' pt pt' sz newsz r PTE_W F := by
  obtain ⟨s, sp, -, hs, hp, -⟩ := forked_reachable
  obtain ⟨hgood, hown⟩ := hs.inv.own hp
  have hown := hown.of_eq (S := sp.pagetable.refs (npages sp.sz) + ({own sp.trapframe} + _)) (by rw [Space.refs, add_assoc])
  exact ⟨s.km, sp.pagetable, _, sp.trapframe, sp.sz, hgood.shape, hgood.small, hown,
    fun newsz => (grows_or_stays hgood.shape hgood.small hown).1 newsz PTE_W rfl⟩

end Grow

end Xv6.Spaces
