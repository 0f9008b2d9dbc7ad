/-
  Xv6.Proc.Exec — `exec` (`kernel/exec.c`) and `sys_exec`
  (`kernel/sysfile.c`), with `proc_pagetable` (`kernel/proc.c`).

  The new image is built beside the old one.  `Built` is the invariant of the
  construction: against the state at the start, the kernel has gained exactly
  the references of the new page table, and everybody else's pages are as they
  were.  Every `goto bad` gives them back (`Built.free`); the old image is
  given up only after the last test.

  The program file is any list of bytes.  Of the file system there are the
  references, locks and transactions that `exec` takes.

  Main results:
    * `loadseg_spec`    — `loadseg` finds the pages of its segment,
    * `exec_spec`       — `exec` returns; if it fails, nothing has changed,
    * `sys_exec_atomic` — the same for the system call,
    * `exec_arguments`  — the stack of the new program.
-/
import Xv6.Mem.Uvmcopy
import Xv6.Lib.Bytes
import Xv6.Lib.Words

namespace Xv6.Exec

open Function (update update_of_ne update_self)
open Lib.Ref (own)

/-! ## §1. The functions. -/

/-- the value of a `uint` expression -/
def u32 (n : Nat) : Nat := n % 2 ^ 32

/-- The file system as far as `exec` uses it. -/
structure Fs where
  /-- the inode a path leads to -/
  lookup : List UInt8 → Option Nat
  /-- the contents of an inode -/
  data : Nat → List UInt8
  /-- `ip->ref` -/
  ref : Nat → Nat
  /-- the sleep locks this process holds -/
  held : List Nat
  /-- `log.outstanding` -/
  outstanding : Nat

namespace Fs

/-- `begin_op()` -/
def begin_op (fs : Fs) : Fs := { fs with outstanding := fs.outstanding + 1 }

/-- `end_op()` -/
def end_op (fs : Fs) : Fs := { fs with outstanding := fs.outstanding - 1 }

/-- `namei(path)` -/
def namei (fs : Fs) (path : List UInt8) : Fs × Option Nat :=
  match fs.lookup path with
  | none => (fs, none)
  | some ip => ({ fs with ref := update fs.ref ip (fs.ref ip + 1) }, some ip)

/-- `ilock(ip)` -/
def ilock (fs : Fs) (ip : Nat) : Fs := { fs with held := ip :: fs.held }

/-- `iunlockput(ip)` -/
def iunlockput (fs : Fs) (ip : Nat) : Fs :=
  { fs with held := fs.held.erase ip, ref := update fs.ref ip (fs.ref ip - 1) }

/-- `iunlockput(ip); end_op()`, if the inode is still there. -/
def close (fs : Fs) : Option Nat → Fs
  | none => fs
  | some ip => (fs.iunlockput ip).end_op

end Fs

/-- `readi(ip, 0, dst, off, n)`: the bytes it copies. -/
def readi (data : List UInt8) (off n : Nat) : List UInt8 :=
  if off > data.length ∨ u32 (off + n) < off then [] else (data.drop off).take n

/-- The fields of a process that `exec` touches. -/
structure Proc where
  pagetable : Pagetable
  sz : Nat
  /-- the page of `p->trapframe` -/
  trapframe : Nat
  name : List UInt8

/-- What `exec` works on. -/
structure State where
  km : Kmem
  p : Proc
  fs : Fs

/-- The `n`-byte number at offset `o` of a header. -/
def field (hdr : List UInt8) (o n : Nat) : Nat := Lib.leNat (fun i => hdr.getD i 0) o n

/-- `struct elfhdr`, 64 bytes -/
structure Elfhdr where
  magic : Nat
  entry : Nat
  phoff : Nat
  phnum : Nat

/-- `sizeof(struct elfhdr)` -/
def Elfhdr.size : Nat := 64

/-- The header in the bytes of a file. -/
def Elfhdr.decode (hdr : List UInt8) : Elfhdr := ⟨field hdr 0 4, field hdr 24 8, field hdr 32 8, field hdr 56 2⟩

/-- `struct proghdr`, 56 bytes -/
structure Proghdr where
  type : Nat
  flags : Nat
  off : Nat
  vaddr : Nat
  filesz : Nat
  memsz : Nat

/-- `sizeof(struct proghdr)` -/
def Proghdr.size : Nat := 56

/-- The header in the bytes of a file. -/
def Proghdr.decode (hdr : List UInt8) : Proghdr :=
  ⟨field hdr 0 4, field hdr 4 4, field hdr 8 8, field hdr 16 8, field hdr 32 8, field hdr 40 8⟩

/-- what an ELF file starts with -/
def ELF_MAGIC : Nat := 0x464C457F
/-- a segment to be loaded -/
def ELF_PROG_LOAD : Nat := 1

/-- `flags2perm(flags)` -/
def flags2perm (flags : Nat) : Flags :=
  { Flags.none with x := flags.testBit 0, w := flags.testBit 1 }

/-- The loop of `loadseg`, `k` pages from offset `i` on. -/
def loadsegLoop (data : List UInt8) (pt : Pagetable) (va offset sz : Nat) : Nat → Kmem → Nat → Result (Kmem × Int)
  | 0, km, _ => .ok (km, 0)
  | k + 1, km, i =>
    match walkaddr pt (u64 (va + i)) with
    | none => .error (.panic "loadseg: address should exist")
    | some pa =>
      let n := if sz - i < PGSIZE then sz - i else PGSIZE
      let bs := readi data (u32 (offset + i)) n
      let km := km.write pa 0 bs
      if bs.length ≠ n then .ok (km, -1) else loadsegLoop data pt va offset sz k km (i + PGSIZE)

/-- `loadseg(pagetable, va, ip, offset, sz)`; the loop runs for `i = 0; i < sz; i += PGSIZE`. -/
def loadseg (data : List UInt8) (km : Kmem) (pt : Pagetable) (va offset sz : Nat) : Result (Kmem × Int) :=
  loadsegLoop data pt va offset sz ((sz + (PGSIZE - 1)) / PGSIZE) km 0

/-- `strlen` and the string itself, in a page of `argv`. -/
def cstr (page : Page) : List UInt8 := ((List.range PGSIZE).map page).takeWhile (· ≠ 0)

/-- The bytes of an array of `uint64`. -/
def bytesOf (ws : List Nat) : List UInt8 := ws.flatMap fun w => (List.range 8).map (Lib.leByte w)

/-- `sp -= n; sp -= sp % 16` -/
def push (sp n : Nat) : Nat :=
  let sp := u64 (sp + 2 ^ 64 - n)
  sp - sp % 16

/-- The part of the path after the last `/`, cut to the 16 bytes of `p->name`. -/
def lastElem (path : List UInt8) : List UInt8 := ((path.reverse.takeWhile (· ≠ 47)).reverse).take 15

section

variable (L : Layout)

/-- `proc_pagetable(p)`, `tf` being the page of `p->trapframe` -/
def proc_pagetable (km : Kmem) (tf : Nat) : Result (Kmem × Option Pagetable) :=
  match uvmcreate km with
  | (km, none) => .ok (km, none)
  | (km, some pt) => do
      let (km, pt, r) ← mappages km pt TRAMPOLINE PGSIZE L.trampoline (PTE_R ||| PTE_X)
      if r < 0 then
        let km ← uvmfree L km pt 0
        .ok (km, none)
      else
        let (km, pt, r) ← mappages km pt TRAPFRAME PGSIZE tf (PTE_R ||| PTE_W)
        if r < 0 then
          let (km, pt) ← uvmunmap L km pt TRAMPOLINE 1 false
          let km ← uvmfree L km pt 0
          .ok (km, none)
        else .ok (km, some pt)

/-- One program header; `false` is `goto bad`. -/
def segment (data : List UInt8) (km : Kmem) (pt : Pagetable) (sz : Nat) (ph : Proghdr) :
    Result (Kmem × Pagetable × Nat × Bool) :=
  if ph.type ≠ ELF_PROG_LOAD then .ok (km, pt, sz, true)
  else if ph.memsz < ph.filesz then .ok (km, pt, sz, false)
  else if u64 (ph.vaddr + ph.memsz) < ph.vaddr then .ok (km, pt, sz, false)
  else if ph.vaddr % PGSIZE ≠ 0 then .ok (km, pt, sz, false)
  else do
    let (km, pt, sz1) ← uvmalloc L km pt sz (u64 (ph.vaddr + ph.memsz)) (flags2perm ph.flags)
    if sz1 = 0 then .ok (km, pt, sz, false)
    else
      let (km, r) ← loadseg data km pt ph.vaddr (u32 ph.off) (u32 ph.filesz)
      .ok (km, pt, sz1, decide (0 ≤ r))

/-- The loop of `exec` over the program headers. -/
def segments (data : List UInt8) : Nat → Kmem → Pagetable → Nat → Nat → Result (Kmem × Pagetable × Nat × Bool)
  | 0, km, pt, sz, _ => .ok (km, pt, sz, true)
  | i + 1, km, pt, sz, off =>
    let hdr := readi data off Proghdr.size
    if hdr.length ≠ Proghdr.size then .ok (km, pt, sz, false)
    else do
      let (km, pt, sz, ok) ← segment L data km pt sz (Proghdr.decode hdr)
      if ok then segments data i km pt sz (u32 (off + Proghdr.size)) else .ok (km, pt, sz, false)

/-- The guard page and the stack. -/
def allocStack (km : Kmem) (pt : Pagetable) (sz : Nat) : Result (Kmem × Pagetable × Nat × Bool) := do
  let sz := PGROUNDUP sz
  let (km, pt, sz1) ← uvmalloc L km pt sz (u64 (sz + 2 * PGSIZE)) PTE_W
  if sz1 = 0 then .ok (km, pt, sz, false)
  else
    let (km, pt) ← uvmclear km pt (sz1 - 2 * PGSIZE)
    .ok (km, pt, sz1, true)

/-- The loop of `exec` over `argv`: the pointers to the strings pushed so far, the last first, and the stack pointer;
`none` is `goto bad`. -/
def pushArgs (stackbase : Nat) :
    List Nat → Kmem → Pagetable → List Nat → Nat → Result (Kmem × Pagetable × Option (List Nat × Nat))
  | [], km, pt, ustack, sp => .ok (km, pt, some (ustack, sp))
  | page :: argv, km, pt, ustack, sp =>
    if ustack.length ≥ MAXARG then .ok (km, pt, none)
    else
      let str := cstr (km.mem page) ++ [0]
      let sp := push sp str.length
      if sp < stackbase then .ok (km, pt, none)
      else do
        let (km, pt, r) ← copyout L km pt sp str
        if r < 0 then .ok (km, pt, none) else pushArgs stackbase argv km pt (sp :: ustack) sp

/-- The arguments and the array of pointers to them. -/
def pushArgv (km : Kmem) (pt : Pagetable) (sz : Nat) (argv : List Nat) :
    Result (Kmem × Pagetable × Option Nat) := do
  let stackbase := sz - PGSIZE
  let (km, pt, args) ← pushArgs L stackbase argv km pt [] sz
  match args with
  | none => .ok (km, pt, none)
  | some (ustack, sp) =>
    let sp := push sp ((ustack.length + 1) * 8)
    if sp < stackbase then .ok (km, pt, none)
    else do
      let (km, pt, r) ← copyout L km pt sp (bytesOf (ustack.reverse ++ [0]))
      .ok (km, pt, if r < 0 then none else some sp)

/-- The label `bad`: `pt` is the new page table and its size, `ip` the inode, if there are. -/
def bad (s : State) (km : Kmem) (pt : Option (Pagetable × Nat)) (ip : Option Nat) : Result (State × Int) := do
  let km ← match pt with
    | none => .ok km
    | some (pt, sz) => proc_freepagetable L km pt sz
  .ok ({ s with km := km, fs := s.fs.close ip }, -1)

/-- The words of the trapframe that `exec` sets: `epc`, `sp` and `a1`. -/
def setFrame (km : Kmem) (tf epc sp : Nat) : Kmem :=
  { km with mem := update km.mem tf (Lib.setWords (km.mem tf) (fun i => i == 3 || i == 6 || i == 15)
      fun i => if i = 3 then .ofNat epc else .ofNat sp) }

/-- "Commit to the user image." -/
def commit (s : State) (km : Kmem) (pt : Pagetable) (sz sp entry : Nat) (path : List UInt8) (argc : Nat) :
    Result (State × Int) := do
  let km := setFrame km s.p.trapframe entry sp
  let km ← proc_freepagetable L km s.p.pagetable s.p.sz
  .ok ({ s with km := km, p := { s.p with pagetable := pt, sz := sz, name := lastElem path } }, argc)

/-- `exec(path, argv)`, `argv` being the pages of the strings -/
def exec (s : State) (path : List UInt8) (argv : List Nat) : Result (State × Int) :=
  match s.fs.begin_op.namei path with
  | (fs, none) => .ok ({ s with fs := fs.end_op }, -1)
  | (fs, some ip) =>
    let s := { s with fs := fs.ilock ip }
    let data := s.fs.data ip
    let hdr := readi data 0 Elfhdr.size
    let elf := Elfhdr.decode hdr
    if hdr.length ≠ Elfhdr.size then bad L s s.km none (some ip)
    else if elf.magic ≠ ELF_MAGIC then bad L s s.km none (some ip)
    else do
      let (km, pt) ← proc_pagetable L s.km s.p.trapframe
      match pt with
      | none => bad L s km none (some ip)
      | some pt => do
          let (km, pt, sz, ok) ← segments L data elf.phnum km pt 0 (u32 elf.phoff)
          if ok = false then bad L s km (some (pt, sz)) (some ip)
          else
            let s := { s with fs := (s.fs.iunlockput ip).end_op }
            let (km, pt, sz, ok) ← allocStack L km pt sz
            if ok = false then bad L s km (some (pt, sz)) none
            else
              let (km, pt, sp) ← pushArgv L km pt sz argv
              match sp with
              | none => bad L s km (some (pt, sz)) none
              | some sp => commit L s km pt sz sp elf.entry path argv.length

end

theorem rest_lt (srcva : Nat) {n : Nat} (h : n ≠ 0) : n - min (PGSIZE - (srcva - PGROUNDDOWN srcva)) n < n := by
  simp only [PGROUNDDOWN, PGSIZE]
  omega

/-- `copyin(pagetable, dst, srcva, len)`: the bytes it stores at `dst`, and whether it returns 0. -/
def copyinTo (km : Kmem) (pt : Pagetable) (srcva len : Nat) : List UInt8 × Bool :=
  if len = 0 then ([], true)
  else
    let va0 := PGROUNDDOWN srcva
    match walkaddr pt va0 with
    | none => ([], false)
    | some pa0 =>
      let n := min (PGSIZE - (srcva - va0)) len
      let (rest, ok) := copyinTo km pt (va0 + PGSIZE) (len - n)
      (km.read pa0 (srcva - va0) n ++ rest, ok)
termination_by len
decreasing_by exact rest_lt srcva ‹_›

/-- The bytes of a `copyin` that returns 0. -/
def copyin (km : Kmem) (pt : Pagetable) (srcva len : Nat) : Option (List UInt8) :=
  let (bs, ok) := copyinTo km pt srcva len
  if ok then some bs else none

/-- `copyinstr(pagetable, dst, srcva, max)`: the bytes copied, and whether it returns 0. -/
def copyinstr (km : Kmem) (pt : Pagetable) (srcva max : Nat) : List UInt8 × Bool :=
  if max = 0 then ([], false)
  else
    let va0 := PGROUNDDOWN srcva
    match walkaddr pt va0 with
    | none => ([], false)
    | some pa0 =>
      let n := min (PGSIZE - (srcva - va0)) max
      let bs := km.read pa0 (srcva - va0) n
      if 0 ∈ bs then (bs.takeWhile (· ≠ 0) ++ [0], true)
      else
        let (rest, got_null) := copyinstr km pt (va0 + PGSIZE) (max - n)
        (bs ++ rest, got_null)
termination_by max
decreasing_by exact rest_lt srcva ‹_›

/-- `fetchaddr(addr, ip)` -/
def fetchaddr (km : Kmem) (p : Proc) (addr : Nat) : Option Nat :=
  if addr ≥ p.sz ∨ u64 (addr + 8) > p.sz then none
  else (copyin km p.pagetable addr 8).map fun bs => field bs 0 8

/-- The loop of `sys_exec`, `k` places of `argv` still free: the pages taken, and whether the null pointer was found. -/
def fetchArgs (p : Proc) (uargv : Nat) : Nat → Kmem → List Nat → Kmem × List Nat × Bool
  | 0, km, argv => (km, argv, false)
  | k + 1, km, argv =>
    match fetchaddr km p (u64 (uargv + 8 * argv.length)) with
    | none => (km, argv, false)
    | some uarg =>
      if uarg = 0 then (km, argv, true)
      else
        match kalloc km with
        | (km, none) => (km, argv, false)
        | (km, some page) =>
          let (str, got_null) := copyinstr km p.pagetable uarg PGSIZE
          let km := km.write page 0 str
          if got_null then fetchArgs p uargv k km (argv ++ [page]) else (km, argv ++ [page], false)

/-- maximum file path name -/
def MAXPATH : Nat := 128

/-- `sys_exec()`, with its two arguments -/
def sys_exec (L : Layout) (s : State) (upath uargv : Nat) : Result (State × Int) :=
  match copyinstr s.km s.p.pagetable upath MAXPATH with
  | (_, false) => .ok (s, -1)
  | (path, true) =>
    match fetchArgs s.p uargv MAXARG s.km [] with
    | (km, argv, false) => do
        let km ← argv.foldlM (kfree L) km
        .ok ({ s with km := km }, -1)
    | (km, argv, true) => do
        let (s, ret) ← exec L { s with km := km } path.dropLast argv
        let km ← argv.foldlM (kfree L) s.km
        .ok ({ s with km := km }, ret)

/-! ## §2. An image under construction. -/

/-- **A new image.**  Since `km₀` the kernel has gained the references of the new page table; the pages of all other
references `R` are as they were. -/
structure Built (L : Layout) (tf : Nat) (km₀ : Kmem) (R : Multiset PageRef) (km : Kmem) (pt : Pagetable) (sz : Nat) :
    Prop where
  moves : Moves L km₀ km 0 (pt.refs (npages sz)) R
  shape : UserMap L tf pt.flat (npages sz)
  small : sz < 2 ^ 63
  fresh : ∀ v, v < npages sz → (pt.flat v).flags.cow = false

/-- Every page of the image is a user page. -/
def AllUser (pt : Pagetable) (sz : Nat) : Prop := ∀ v, v < npages sz → (pt.flat v).flags.u = true

section Image

variable {L : Layout} {tf : Nat} {km₀ km : Kmem} {R : Multiset PageRef} {pt : Pagetable} {sz : Nat}

variable (h : Built L tf km₀ R km pt sz)
include h

/-- Giving the image up. -/
theorem Built.free :
    ∃ km', proc_freepagetable L km pt sz = .ok km' ∧ Moves L km₀ km' 0 0 R := by
  obtain ⟨km', hrun, hmv⟩ := proc_freepagetable_spec h.shape h.moves.after
  exact ⟨km', hrun, h.moves.trans hmv⟩

theorem Built.write {v : Nat} (hv : v < npages sz) (off : Nat) (bs : List UInt8) :
    Built L tf km₀ R (km.write (pt.flat v).pa off bs) pt sz :=
  ⟨h.moves.write (Spaces.own_frame hv (h.fresh v hv)), h.shape, h.small, h.fresh⟩

omit h

/-- The size may be rounded up. -/
theorem Built.resize {sz' : Nat} (h : Built L tf km₀ R km pt sz) (hn : npages sz' = npages sz) (hsz : sz' < 2 ^ 63) :
    Built L tf km₀ R km pt sz' := by
  obtain ⟨hmv, hshape, -, hfresh⟩ := h
  rw [← hn] at hmv hshape hfresh
  exact ⟨hmv, hshape, hsz, hfresh⟩

/-- **`uvmalloc`** grows the image, or leaves it. -/
theorem Built.alloc {xperm : Flags} (h : Built L tf km₀ R km pt sz) (hx : xperm.cow = false) (newsz : Nat) :
    ∃ km' pt' r, uvmalloc L km pt sz newsz xperm = .ok (km', pt', r) ∧ (r = 0 → Built L tf km₀ R km' pt' sz)
      ∧ (r ≠ 0 → Built L tf km₀ R km' pt' r ∧ newsz ≤ r ∧ (sz ≤ newsz → r = newsz)
          ∧ (AllUser pt sz → AllUser pt' r)) := by
  obtain ⟨km', pt', r, hrun, hcase⟩ : ∃ km' pt' r, uvmalloc L km pt sz newsz xperm = .ok (km', pt', r) ∧ _ :=
    uvmalloc_spec hx h.shape h.small h.moves.after
  refine ⟨km', pt', r, hrun, ?_⟩
  rcases hcase with ⟨hlt, rfl, rfl, rfl⟩ | ⟨hle, rfl, hsmall, hmv, hshape, hlow, hhigh⟩ | ⟨-, rfl, hmv, hflat, -⟩
  · exact ⟨fun _ => h, fun _ => ⟨h, by omega, by omega, fun hu => hu⟩⟩
  · have hmono : npages sz ≤ npages r := npages_mono hle hsmall
    have hsplit : frames pt'.flat 0 (npages r)
        = frames pt.flat 0 (npages sz) + frames pt'.flat (npages sz) (npages r - npages sz) := by
      have hadd := frames_add pt'.flat 0 (npages sz) (npages r - npages sz)
      rw [Nat.zero_add, show npages sz + (npages r - npages sz) = npages r by omega] at hadd
      rw [hadd, frames_congr fun i _ hi => by rw [hlow i (by omega)]]
    have hbuilt : Built L tf km₀ R km' pt' r := by
      refine ⟨?_, hshape, hsmall, fun v hv => ?_⟩
      · refine h.moves.trans (hmv.frame.of_eq ?_ ?_ rfl)
        · rw [Pagetable.refs]
        · rw [Pagetable.refs, hsplit]
          abel
      · by_cases hold : v < npages sz
        · rw [hlow v hold]
          exact h.fresh v hold
        · rw [(hhigh v (by omega) hv).1]
          simp [Flags.or_def, PTE_R, PTE_U, PTE_V, Flags.none, hx]
    refine ⟨?_, fun _ => ⟨hbuilt, Nat.le_refl r, fun _ => rfl, ?_⟩⟩
    · intro hr
      have hsz : sz = r := by omega
      rw [hsz]
      exact hbuilt
    intro hu v hv
    by_cases hold : v < npages sz
    · rw [hlow v hold]
      exact hu v hold
    · rw [(hhigh v (by omega) hv).1]
      simp [Flags.or_def, PTE_U]
  · refine ⟨fun _ => ⟨?_, ?_, h.small, ?_⟩, fun hr => absurd rfl hr⟩
    · refine h.moves.trans (hmv.frame.of_eq ?_ ?_ rfl)
      · rw [Pagetable.refs]
      · rw [Pagetable.refs, hflat]
    · rw [hflat]
      exact h.shape
    · rw [hflat]
      exact h.fresh

/-! ## §3. The segments. -/

variable {va : Nat}

include h

/-- A user page of the image is found. -/
theorem Built.walkaddr (hu : AllUser pt sz) (hva : va < sz) :
    walkaddr pt va = some (pt.flat (va / PGSIZE)).pa ∧ va / PGSIZE < npages sz := by
  have hv := div_lt_npages hva h.small
  have hmax : va < MAXVA := by
    have hb := h.shape.bound
    simp only [TRAPFRAMEVPN, PGSIZE, MAXVA] at *
    omega
  refine ⟨?_, hv⟩
  rw [Xv6.walkaddr, if_neg (by omega), find_of_flat pt hmax (h.shape.valid _ hv)]
  dsimp only
  rw [h.shape.valid _ hv, hu _ hv, if_neg (by decide), if_neg (by decide)]

omit h

/-- **The loop of `loadseg`** finds its pages. -/
theorem loadsegLoop_spec {data : List UInt8} {offset fsz : Nat} (hu : AllUser pt sz) (hfit : va + fsz ≤ sz)
    (k : Nat) : ∀ {km : Kmem} {i : Nat}, Built L tf km₀ R km pt sz → (k ≠ 0 → i + (k - 1) * PGSIZE < fsz) →
      ∃ km' r, loadsegLoop data pt va offset fsz k km i = .ok (km', r) ∧ Built L tf km₀ R km' pt sz := by
  induction k with
  | zero => exact fun h _ => ⟨_, 0, rfl, h⟩
  | succ k ih =>
    intro km i h hi
    have hsmall := h.small
    have haddr : u64 (va + i) = va + i := u64_of_lt (by omega)
    obtain ⟨hfind, hv⟩ := h.walkaddr hu (show va + i < sz by omega)
    rw [loadsegLoop, haddr, hfind]
    dsimp only
    generalize (if fsz - i < PGSIZE then fsz - i else PGSIZE) = n
    split
    · exact ⟨_, -1, rfl, h.write hv 0 _⟩
    · apply ih (h.write hv 0 _)
      intro hk
      have := hi (by omega)
      simp only [PGSIZE] at this ⊢
      omega

theorem loadseg_spec (data : List UInt8) (offset : Nat) {fsz : Nat} (h : Built L tf km₀ R km pt sz)
    (hu : AllUser pt sz) (hfit : va + fsz ≤ sz) :
    ∃ km' r, loadseg data km pt va offset fsz = .ok (km', r) ∧ Built L tf km₀ R km' pt sz := by
  apply loadsegLoop_spec hu hfit _ h
  intro hk
  simp only [PGSIZE] at hk ⊢
  omega

theorem flags2perm_cow (flags : Nat) : (flags2perm flags).cow = false := rfl

/-- The fields of a header are `uint64`. -/
theorem decode_lt (hdr : List UInt8) : (Proghdr.decode hdr).vaddr < 2 ^ 64 ∧ (Proghdr.decode hdr).memsz < 2 ^ 64 :=
  ⟨Lib.leNat_lt _ 16 8, Lib.leNat_lt _ 40 8⟩

/-- **One program header.** -/
theorem segment_spec (data : List UInt8) {ph : Proghdr} (hph : ph.vaddr < 2 ^ 64 ∧ ph.memsz < 2 ^ 64)
    (h : Built L tf km₀ R km pt sz) (hu : AllUser pt sz) :
    ∃ km' pt' sz' ok, segment L data km pt sz ph = .ok (km', pt', sz', ok) ∧ Built L tf km₀ R km' pt' sz'
      ∧ (ok = true → AllUser pt' sz') := by
  unfold segment
  split
  · exact ⟨km, pt, sz, true, rfl, h, fun _ => hu⟩
  split
  · exact ⟨km, pt, sz, false, rfl, h, fun hc => nomatch hc⟩
  split
  · exact ⟨km, pt, sz, false, rfl, h, fun hc => nomatch hc⟩
  split
  · exact ⟨km, pt, sz, false, rfl, h, fun hc => nomatch hc⟩
  rename_i hsizes hover _
  obtain ⟨km₁, pt₁, r, hrun, hzero, hgrown⟩ := h.alloc (flags2perm_cow ph.flags) (u64 (ph.vaddr + ph.memsz))
  rw [hrun, Result.ok_bind]
  dsimp only
  by_cases hr : r = 0
  · rw [if_pos hr]
    exact ⟨km₁, pt₁, sz, false, rfl, hzero hr, fun hc => nomatch hc⟩
  rw [if_neg hr]
  obtain ⟨hbuilt, hle, -, huser⟩ := hgrown hr
  -- the sum does not wrap, so the segment ends below the new size
  have hfit : ph.vaddr + u32 ph.filesz ≤ r := by
    simp only [u64, u32] at *
    omega
  obtain ⟨km₂, r₂, hload, hbuilt₂⟩ := loadseg_spec data (u32 ph.off) hbuilt (huser hu) hfit
  rw [hload, Result.ok_bind]
  exact ⟨km₂, pt₁, r, _, rfl, hbuilt₂, fun _ => huser hu⟩

/-- **The program headers.** -/
theorem segments_spec (data : List UInt8) (k : Nat) :
    ∀ {km : Kmem} {pt : Pagetable} {sz : Nat} (off : Nat), Built L tf km₀ R km pt sz → AllUser pt sz →
      ∃ km' pt' sz' ok, segments L data k km pt sz off = .ok (km', pt', sz', ok) ∧ Built L tf km₀ R km' pt' sz' := by
  induction k with
  | zero => exact fun _ h _ => ⟨_, _, _, true, rfl, h⟩
  | succ k ih =>
    intro km pt sz off h hu
    rw [segments]
    split
    · exact ⟨km, pt, sz, false, rfl, h⟩
    obtain ⟨km₁, pt₁, sz₁, ok, hrun, hbuilt, huser⟩ :=
      segment_spec data (decode_lt (readi data off Proghdr.size)) h hu
    rw [hrun, Result.ok_bind]
    cases ok with
    | false => exact ⟨km₁, pt₁, sz₁, false, rfl, hbuilt⟩
    | true => exact ih _ hbuilt (huser rfl)

/-! ## §4. The stack. -/

include h

/-- The guard page stays a page of the image. -/
theorem Built.guard (hva : va < sz) : ∃ pt', uvmclear km pt va = .ok (km, pt')
      ∧ Built L tf km₀ R km pt' sz ∧ pt'.user (va / PGSIZE) = false := by
  have hv := div_lt_npages hva h.small
  obtain ⟨pt', hrun, htables, hflat, hshape, hframes⟩ := uvmclear_spec km h.shape hv
  refine ⟨pt', hrun, ⟨?_, hshape, h.small, fun v hvn => ?_⟩, ?_⟩
  · rw [Pagetable.refs, htables, hframes]
    exact h.moves
  · rw [hflat]
    by_cases hvv : v = va / PGSIZE
    · rw [hvv, update_self]
      exact h.fresh _ hv
    · rw [update_of_ne hvv]
      exact h.fresh v hvn
  · by_contra hne
    have hu := (user_iff.mp (Bool.not_eq_false _ ▸ hne)).2.2
    rw [hflat, update_self] at hu
    cases hu

theorem Built.room : npages sz ≤ 32768 :=
  h.shape.room h.moves.after (by
    rw [Pagetable.refs, add_right_comm, add_comm]
    exact Multiset.le_add_right _ _)

/-- **The guard page and the stack.** -/
theorem allocStack_spec : ∃ km' pt' sz' ok, allocStack L km pt sz = .ok (km', pt', sz', ok)
      ∧ Built L tf km₀ R km' pt' sz'
      ∧ (ok = true → sz' % PGSIZE = 0 ∧ 2 * PGSIZE ≤ sz' ∧ pt'.user (sz' / PGSIZE - 2) = false) := by
  have hroom := h.room
  have hround : npages (PGROUNDUP sz) = npages sz := by
    rw [PGROUNDUP_eq]
    exact npages_mul _ (by omega)
  have hup : PGROUNDUP sz < 2 ^ 62 := by
    rw [PGROUNDUP_eq]
    simp only [PGSIZE]
    omega
  have h' := h.resize hround (by omega)
  obtain ⟨km₁, pt₁, r, hrun, hzero, hgrown⟩ :=
    h'.alloc (show PTE_W.cow = false from rfl) (u64 (PGROUNDUP sz + 2 * PGSIZE))
  rw [allocStack]
  rw [hrun, Result.ok_bind]
  dsimp only
  by_cases hr : r = 0
  · rw [if_pos hr]
    exact ⟨km₁, pt₁, _, false, rfl, hzero hr, fun hok => Bool.noConfusion hok⟩
  rw [if_neg hr]
  obtain ⟨hbuilt, -, hsz, -⟩ := hgrown hr
  obtain ⟨pt₂, hclear, hbuilt₂, hguard⟩ := hbuilt.guard (show r - 2 * PGSIZE < r by simp only [PGSIZE]; omega)
  have hnew : u64 (PGROUNDUP sz + 2 * PGSIZE) = PGROUNDUP sz + 2 * PGSIZE := u64_of_lt (by simp only [PGSIZE]; omega)
  have hr := hsz (by omega)
  rw [hclear, Result.ok_bind]
  refine ⟨km₁, pt₂, r, true, rfl, hbuilt₂, fun _ => ⟨?_, by omega, ?_⟩⟩
  · rw [hr, hnew, PGROUNDUP_eq, ← Nat.add_mul, Nat.mul_mod_left]
  · rw [← Nat.sub_mul_div, Nat.mul_comm]
    exact hguard

/-- **`copyout` to the image** writes to its pages only: none of them is shared. -/
theorem Built.copyout (dstva : Nat) (src : List UInt8) :
    ∃ km' r, copyout L km pt dstva src = .ok (km', pt, r) ∧ Built L tf km₀ R km' pt sz
      ∧ (0 ≤ r → pt.view km' = overwritten (pt.view km) dstva src) := by
  obtain ⟨km', pt', r, hrun, -, hmv, hview, -, hsame⟩ := Spaces.copyout_moves h.shape h.moves.after dstva src
  obtain rfl := hsame fun v hv => h.fresh v (h.shape.user_lt hv)
  exact ⟨km', r, hrun, ⟨h.moves.trans hmv, h.shape, h.small, h.fresh⟩, hview⟩

omit h

/-- What `n` bytes take on the stack. -/
def room16 (n : Nat) : Nat := (n + 15) / 16 * 16

/-- A push to an address of the image has not wrapped around. -/
theorem push_spec {sp n : Nat} (hsp : sp < 2 ^ 63) (hal : sp % 16 = 0) (hn : n ≤ 2 ^ 62) (h : push sp n < 2 ^ 62) :
    push sp n + room16 n = sp := by
  simp only [push, u64, room16] at *
  omega

/-- The strings from `hi` down to `lo`, one below the other, each at its pointer. -/
def Stacked (view : Nat → Option UInt8) (lo : Nat) : List Nat → List (List UInt8) → Nat → Prop
  | [], [], hi => lo ≤ hi
  | p :: ptrs, str :: strs, hi => p % 16 = 0 ∧ p + str.length ≤ hi ∧ (∀ j < str.length, view (p + j) = str[j]?)
      ∧ Stacked view lo ptrs strs p
  | _, _, _ => False

theorem Stacked.mono {view view' : Nat → Option UInt8} {lo lo' : Nat} (hlo : lo' ≤ lo)
    (hview : ∀ a, lo ≤ a → view' a = view a) : ∀ {ptrs : List Nat} {strs : List (List UInt8)} {hi : Nat},
      Stacked view lo ptrs strs hi → lo ≤ hi ∧ Stacked view' lo' ptrs strs hi
  | [], [], hi, h => ⟨h, Nat.le_trans hlo h⟩
  | p :: ptrs, str :: strs, hi, ⟨hal, hle, hbytes, hrest⟩ => by
    obtain ⟨hp, hrest'⟩ := hrest.mono hlo hview
    refine ⟨by omega, hal, hle, fun j hj => ?_, hrest'⟩
    rw [hview _ (by omega)]
    exact hbytes j hj

/-- What `exec` puts on the stack for the pages `argv`. -/
def argStrs (km : Kmem) (argv : List Nat) : List (List UInt8) := argv.map fun page => cstr (km.mem page) ++ [0]

theorem argStrs_length (page : Page) : 0 < (cstr page ++ [0]).length ∧ (cstr page ++ [0]).length ≤ 2 ^ 62 := by
  have hle : (cstr page).length ≤ ((List.range PGSIZE).map page).length := (List.takeWhile_sublist _).length_le
  rw [List.length_map, List.length_range] at hle
  rw [List.length_append, List.length_singleton]
  unfold PGSIZE at hle
  omega

include h

/-- **A push**: where `copyout` succeeds there is a page of the image, so the address has not wrapped around; the bytes
from `sp` on stay. -/
theorem Built.push (sp : Nat) (str : List UInt8) :
    ∃ km' r, Xv6.copyout L km pt (push sp str.length) str = .ok (km', pt, r) ∧ Built L tf km₀ R km' pt sz
      ∧ (0 ≤ r → 0 < str.length ∧ str.length ≤ 2 ^ 62 → sp < 2 ^ 63 → sp % 16 = 0 →
        Exec.push sp str.length + room16 str.length = sp
        ∧ (∀ j < str.length, pt.view km' (Exec.push sp str.length + j) = str[j]?)
        ∧ ∀ a, sp ≤ a → pt.view km' a = pt.view km a) := by
  obtain ⟨km', r, hrun, hbuilt, hview⟩ := h.copyout (Exec.push sp str.length) str
  refine ⟨km', r, hrun, hbuilt, fun hr hlen hsp hal => ?_⟩
  have hbytes : ∀ j < str.length, pt.view km' (Exec.push sp str.length + j) = str[j]? := by
    intro j hj
    rw [hview hr, overwritten, if_pos (by omega), Nat.add_sub_cancel_left]
  have hlow : Exec.push sp str.length < 2 ^ 62 := by
    -- the first byte is in a user page, and memory has room for few of them
    have hfirst := hbytes 0 hlen.1
    rw [List.getElem?_eq_getElem hlen.1] at hfirst
    unfold Pagetable.view at hfirst
    split at hfirst
    · have hv := hbuilt.shape.user_lt ‹_›
      have hroom := hbuilt.room
      simp only [PGSIZE] at hv
      omega
    · cases hfirst
  have hpush := push_spec hsp hal hlen.2 hlow
  refine ⟨hpush, hbytes, fun a ha => ?_⟩
  rw [hview hr, overwritten, if_neg (by unfold room16 at hpush; omega)]

omit h

/-- **The strings**: those from `sp` on stay, and the new ones are below. -/
theorem pushArgs_spec (stackbase : Nat) (argv : List Nat) :
    ∀ {km : Kmem} (ustack : List Nat) (sp : Nat), Built L tf km₀ R km pt sz → (∀ page ∈ argv, own page ∈ R) →
      ∃ km' args, pushArgs L stackbase argv km pt ustack sp = .ok (km', pt, args) ∧ Built L tf km₀ R km' pt sz
        ∧ ∀ ustack' sp', args = some (ustack', sp') → sp < 2 ^ 63 → sp % 16 = 0 → ∃ ptrs, ustack' = ptrs.reverse ++ ustack
          ∧ ptrs.length = argv.length ∧ Stacked (pt.view km') sp' ptrs (argStrs km₀ argv) sp ∧ sp' % 16 = 0
          ∧ sp' + ((argStrs km₀ argv).map fun str => room16 str.length).sum = sp ∧ sp' + 16 * argv.length ≤ sp
          ∧ ∀ a, sp ≤ a → pt.view km' a = pt.view km a := by
  induction argv with
  | nil =>
    refine fun ustack sp h _ => ⟨_, some (ustack, sp), rfl, h, fun ustack' sp' hargs hsp hal => ?_⟩
    cases hargs
    exact ⟨[], rfl, rfl, le_rfl, hal, rfl, le_rfl, fun _ _ => rfl⟩
  | cons page argv ih =>
    intro km ustack sp h hargv
    have hsame : km.mem page = km₀.mem page := h.moves.same (own page) (hargv page List.mem_cons_self)
    have hlen := argStrs_length (km₀.mem page)
    rw [pushArgs, hsame, argStrs, List.map_cons, ← argStrs]
    dsimp only
    -- only the length of the string matters from here on
    generalize cstr (km₀.mem page) ++ [0] = str at hlen ⊢
    split
    · exact ⟨km, none, rfl, h, nofun⟩
    split
    · exact ⟨km, none, rfl, h, nofun⟩
    obtain ⟨km₁, r, hrun, hbuilt, hput⟩ := h.push sp str
    rw [hrun, Result.ok_bind]
    dsimp only
    split
    · exact ⟨km₁, none, rfl, hbuilt, nofun⟩
    obtain ⟨km', args, hrest, hbuilt', hpushed⟩ := ih (_ :: ustack) _ hbuilt
      fun page hpage => hargv page (List.mem_cons_of_mem _ hpage)
    refine ⟨km', args, hrest, hbuilt', fun ustack' sp' hargs hsp hal => ?_⟩
    obtain ⟨hpush, hbytes, hkept⟩ := hput (by omega) hlen hsp hal
    have hroom₁ : str.length ≤ room16 str.length ∧ 16 ≤ room16 str.length ∧ room16 str.length % 16 = 0 := by
      unfold room16
      omega
    obtain ⟨ptrs, hptrs, hcount, hstack, hal', hsum, hroom, hkept'⟩ := hpushed ustack' sp' hargs (by omega) (by omega)
    refine ⟨push sp str.length :: ptrs, ?_, congrArg (· + 1) hcount,
      ⟨by omega, by omega, fun j hj => ?_, hstack⟩, hal', ?_, ?_, fun a ha => ?_⟩
    · rw [hptrs, List.reverse_cons, List.append_assoc]
      rfl
    · -- later pushes are below this one
      rw [hkept' _ (Nat.le_add_right ..)]
      exact hbytes j hj
    · rw [List.map_cons, List.sum_cons]
      omega
    · rw [List.length_cons]
      omega
    · rw [hkept' a (by omega), hkept a ha]

theorem bytesOf_length (ws : List Nat) : (bytesOf ws).length = ws.length * 8 := by
  induction ws with
  | nil => rfl
  | cons w ws ih =>
    rw [bytesOf, List.flatMap_cons, List.length_append, ← bytesOf, ih, List.length_map, List.length_range, List.length_cons]
    omega

/-- **The arguments of `main`** on the stack below `top`: at `sp`, the pointers to the strings and a null, and above them
the strings. -/
structure Args (view : Nat → Option UInt8) (strs : List (List UInt8)) (ptrs : List Nat) (top sp : Nat) : Prop where
  aligned : sp % 16 = 0
  inside : top - PGSIZE ≤ sp
  count : ptrs.length = strs.length
  array : ∀ j < (ptrs.length + 1) * 8, view (sp + j) = (bytesOf (ptrs ++ [0]))[j]?
  strings : Stacked view (sp + (ptrs.length + 1) * 8) ptrs strs top
  fit : (strs.map fun str => room16 str.length).sum + room16 ((strs.length + 1) * 8) ≤ PGSIZE

/-- **The arguments.** -/
theorem pushArgv_spec (argv : List Nat) (h : Built L tf km₀ R km pt sz) (hargv : ∀ page ∈ argv, own page ∈ R) :
    ∃ km' sp, pushArgv L km pt sz argv = .ok (km', pt, sp) ∧ Built L tf km₀ R km' pt sz ∧ ∀ sp', sp = some sp' →
      sz % PGSIZE = 0 → ∃ ptrs, Args (pt.view km') (argStrs km₀ argv) ptrs sz sp' := by
  obtain ⟨km₁, args, hrun, hbuilt, hpushed⟩ := pushArgs_spec (sz - PGSIZE) argv [] sz h hargv
  rw [pushArgv]
  rw [hrun, Result.ok_bind]
  cases args with
  | none => exact ⟨km₁, none, rfl, hbuilt, nofun⟩
  | some a =>
    dsimp only
    split
    · exact ⟨km₁, none, rfl, hbuilt, nofun⟩
    rename_i hbase
    obtain ⟨km₂, r, hrun₂, hbuilt₂, hput⟩ := hbuilt.push a.2 (bytesOf (a.1.reverse ++ [0]))
    rw [bytesOf_length, List.length_append, List.length_reverse, List.length_singleton] at hrun₂ hput
    rw [hrun₂, Result.ok_bind]
    refine ⟨km₂, _, rfl, hbuilt₂, fun sp' hsp' hsz => ?_⟩
    have hsmall := h.small
    obtain ⟨ptrs, hptrs, hcount, hstack, hal, hsum, hroom, -⟩ := hpushed a.1 a.2 rfl hsmall (by unfold PGSIZE at hsz; omega)
    rw [List.append_nil] at hptrs
    rw [hptrs, List.reverse_reverse, List.length_reverse, hcount] at hput
    rw [hptrs, List.length_reverse, hcount] at hsp' hbase
    dsimp only at hsp'
    split at hsp'
    · cases hsp'
    cases hsp'
    obtain ⟨hpush, hbytes, hkept⟩ := hput (by omega) ⟨by omega, by omega⟩ (by omega) hal
    have hstrs : (argStrs km₀ argv).length = argv.length := List.length_map ..
    have hroom₁ : (argv.length + 1) * 8 ≤ room16 ((argv.length + 1) * 8) ∧ room16 ((argv.length + 1) * 8) % 16 = 0 := by
      unfold room16
      omega
    refine ⟨ptrs, by omega, by omega, by omega, ?_, ?_, ?_⟩
    · rw [hcount]
      exact hbytes
    · rw [hcount]
      exact (hstack.mono (by omega) hkept).2
    · rw [hstrs]
      omega

/-- A push with room below `sp`. -/
theorem push_room {sp n : Nat} (hsp : sp < 2 ^ 63) (hal : sp % 16 = 0) (h : room16 n ≤ sp) : push sp n + room16 n = sp := by
  simp only [push, u64, room16] at *
  omega

/-- The pages from `stackbase` up to the top are user pages. -/
def Stack (pt : Pagetable) (stackbase sz : Nat) : Prop :=
  PGSIZE ≤ stackbase ∧ ∀ a, stackbase ≤ a → a < sz → pt.user (a / PGSIZE) = true

/-- A store to the stack succeeds. -/
theorem Built.store {stackbase sp : Nat} (str : List UInt8) (h : Built L tf km₀ R km pt sz) (hstack : Stack pt stackbase sz)
    (hlow : stackbase ≤ sp) (hhigh : sp + str.length ≤ sz) :
    ∃ km', Xv6.copyout L km pt sp str = .ok (km', pt, 0) ∧ Built L tf km₀ R km' pt sz := by
  obtain ⟨km', r, hrun, hbuilt, -⟩ := h.copyout sp str
  obtain ⟨km₁, hok⟩ : ∃ km₁, Xv6.copyout L km pt sp str = .ok (km₁, pt, 0) := by
    refine copyout_plain fun a hle hlt => ?_
    have huser := hstack.2 a (by omega) (by omega)
    exact ⟨hstack.1.trans (by omega), huser, h.fresh _ (h.shape.user_lt huser)⟩
  rw [hrun] at hok
  cases hok
  exact ⟨km', hrun, hbuilt⟩

/-- **Strings that fit** are pushed. -/
theorem pushArgs_fits {stackbase : Nat} (hstack : Stack pt stackbase sz) (argv : List Nat) :
    ∀ {km : Kmem} (ustack : List Nat) (sp : Nat), Built L tf km₀ R km pt sz → (∀ page ∈ argv, own page ∈ R) →
      ustack.length + argv.length ≤ MAXARG → sp ≤ sz → sp % 16 = 0 →
      stackbase + ((argStrs km₀ argv).map fun str => room16 str.length).sum ≤ sp →
      ∃ km' ustack' sp', pushArgs L stackbase argv km pt ustack sp = .ok (km', pt, some (ustack', sp')) := by
  induction argv with
  | nil => exact fun ustack sp _ _ _ _ _ _ => ⟨_, ustack, sp, rfl⟩
  | cons page argv ih =>
    intro km ustack sp h hargv hcount hsp hal hroom
    have hsame : km.mem page = km₀.mem page := h.moves.same (own page) (hargv page List.mem_cons_self)
    have hsmall := h.small
    rw [argStrs, List.map_cons, List.map_cons, List.sum_cons, ← argStrs] at hroom
    rw [List.length_cons] at hcount
    rw [pushArgs, hsame]
    dsimp only
    generalize cstr (km₀.mem page) ++ [0] = str at hroom ⊢
    have hpush := push_room (n := str.length) (by omega) hal (by omega)
    have hfit : str.length ≤ room16 str.length ∧ room16 str.length % 16 = 0 := by
      unfold room16
      omega
    obtain ⟨km₁, hrun, hbuilt⟩ := h.store str hstack (show stackbase ≤ push sp str.length by omega) (by omega)
    rw [if_neg (by omega), if_neg (by omega), hrun, Result.ok_bind]
    dsimp only
    rw [if_neg (by decide)]
    exact ih (_ :: ustack) _ hbuilt (fun page hpage => hargv page (List.mem_cons_of_mem _ hpage))
      (by rw [List.length_cons]; omega) (by omega) (by omega) (by omega)

/-- **Arguments that fit** are pushed. -/
theorem pushArgv_fits {argv : List Nat} (h : Built L tf km₀ R km pt sz) (hargv : ∀ page ∈ argv, own page ∈ R)
    (hstack : Stack pt (sz - PGSIZE) sz) (hsz : sz % PGSIZE = 0) (hcount : argv.length ≤ MAXARG)
    (hfit : ((argStrs km₀ argv).map fun str => room16 str.length).sum + room16 ((argv.length + 1) * 8) ≤ PGSIZE) :
    ∃ km' sp, pushArgv L km pt sz argv = .ok (km', pt, some sp) := by
  have hpage := hstack.1
  have hsmall := h.small
  have hal : sz % 16 = 0 := by
    unfold PGSIZE at hsz
    omega
  obtain ⟨km₁, ustack, sp, hrun⟩ := pushArgs_fits hstack argv [] sz h hargv (by rw [List.length_nil]; omega) le_rfl hal (by omega)
  obtain ⟨km₂, args, hrun₂, hbuilt, hpushed⟩ := pushArgs_spec (sz - PGSIZE) argv [] sz h hargv
  rw [hrun] at hrun₂
  cases hrun₂
  obtain ⟨ptrs, hptrs, hlen, -, hal', hsum, -⟩ := hpushed ustack sp rfl hsmall hal
  have hcount' : ustack.length = argv.length := by rw [hptrs, List.append_nil, List.length_reverse, hlen]
  have hpush := push_room (n := (argv.length + 1) * 8) (by omega) hal' (by omega)
  have hbytes : (bytesOf (ustack.reverse ++ [0])).length = (argv.length + 1) * 8 := by
    rw [bytesOf_length, List.length_append, List.length_reverse, List.length_singleton, hcount']
  have hroom : (argv.length + 1) * 8 ≤ room16 ((argv.length + 1) * 8) := by
    unfold room16
    omega
  obtain ⟨km', hstore, -⟩ := hbuilt.store (bytesOf (ustack.reverse ++ [0])) hstack
    (show sz - PGSIZE ≤ push sp ((argv.length + 1) * 8) by omega) (by omega)
  rw [pushArgv, hrun, Result.ok_bind]
  dsimp only
  rw [hcount', if_neg (by omega), hstore, Result.ok_bind]
  exact ⟨km', _, rfl⟩

/-! ## §5. The new page table. -/

/-- A page table with no valid entry is freed with its tables. -/
theorem uvmfree_empty {F : Multiset PageRef} (hflat : ∀ v, (pt.flat v).flags.v = false)
    (ho : km.Owns L (pt.tables + F)) : ∃ km', uvmfree L km pt 0 = .ok km' ∧ Moves L km km' pt.tables 0 F := by
  have hrefs : pt.refs (npages 0) = pt.tables := by rw [Pagetable.refs, npages_zero, frames_zero, add_zero]
  obtain ⟨km', hrun, hmv⟩ : ∃ km', uvmfree L km pt 0 = .ok km' ∧ Moves L km km' (pt.refs (npages 0)) 0 F :=
    uvmfree_spec (fun v hv => absurd hv (Nat.not_lt_zero v)) (fun v _ => hflat v) (Nat.zero_le _)
      (by rw [hrefs]; exact ho)
  rw [hrefs] at hmv
  exact ⟨km', hrun, hmv⟩

/-- Nothing but the two pages at the top is mapped. -/
theorem UserMap.top {f : Nat → Pte} (htramp : f TRAMPOLINEVPN = Pte.map L.trampoline (PTE_R ||| PTE_X))
    (htrapf : f TRAPFRAMEVPN = Pte.map tf (PTE_R ||| PTE_W))
    (hrest : ∀ v, v ≠ TRAPFRAMEVPN → v ≠ TRAMPOLINEVPN → f v = Pte.zero) : UserMap L tf f 0 where
  valid v hv := absurd hv (Nat.not_lt_zero v)
  readable v hv := absurd hv (Nat.not_lt_zero v)
  cow v hv := absurd hv (Nat.not_lt_zero v)
  nodup := by
    exact Multiset.nodup_zero
  tramp := htramp
  trapf := htrapf
  rest v _ := hrest v
  bound := Nat.zero_le _

/-- **`proc_pagetable`**: an image without user pages, or nothing. -/
theorem proc_pagetable_spec (tf : Nat) (ho : km.Owns L R) :
    ∃ km', (proc_pagetable L km tf = .ok (km', none) ∧ Moves L km km' 0 0 R)
      ∨ ∃ pt, proc_pagetable L km tf = .ok (km', some pt) ∧ Built L tf km R km' pt 0 ∧ pt.tables.card ≤ 5 := by
  have htops : TRAPFRAMEVPN ≠ TRAMPOLINEVPN := by decide
  rcases uvmcreate_spec ho with ⟨hcreate, -⟩ | ⟨km₁, pt₁, hcreate, hmv₁, hcard₁, hflat₁⟩
  · refine ⟨km, .inl ⟨?_, Moves.refl (ho.of_eq (zero_add R))⟩⟩
    rw [proc_pagetable, hcreate]
  have hzero : ∀ v, pt₁.flat v = Pte.zero := fun v => congrFun hflat₁ v
  have hdiv : TRAMPOLINE / PGSIZE = TRAMPOLINEVPN ∧ TRAPFRAME / PGSIZE = TRAPFRAMEVPN := by decide
  obtain ⟨km₂, pt₂, r₂, hmap₂, hmv₂, hcard₂, hcase₂⟩ := mappages_page_spec L.trampoline (PTE_R ||| PTE_X)
    (show TRAMPOLINE % PGSIZE = 0 by decide) (by decide) (by rw [hzero]; rfl) hmv₁.after
  have hmv₁₂ := hmv₁.trans hmv₂
  rw [hdiv.1] at hcase₂
  rcases hcase₂ with ⟨rfl, hflat₂⟩ | ⟨rfl, hflat₂, -⟩
  · have hfree : (pt₂.flat (TRAPFRAME / PGSIZE)).flags.v = false := by
      rw [hdiv.2, hflat₂, update_of_ne htops, hzero]
      rfl
    obtain ⟨km₃, pt₃, r₃, hmap₃, hmv₃, hcard₃, hcase₃⟩ := mappages_page_spec tf (PTE_R ||| PTE_W)
      (show TRAPFRAME % PGSIZE = 0 by decide) (by decide) hfree hmv₂.after
    have hmv₁₃ := hmv₁₂.trans hmv₃
    rw [hdiv.2] at hcase₃
    rcases hcase₃ with ⟨rfl, hflat₃⟩ | ⟨rfl, hflat₃, -⟩
    · -- both pages are mapped
      refine ⟨km₃, .inr ⟨pt₃, ?_, ?_, by omega⟩⟩
      · rw [proc_pagetable, hcreate]
        dsimp only
        rw [hmap₂, Result.ok_bind]
        dsimp only
        rw [if_neg (by decide), hmap₃, Result.ok_bind]
        rfl
      have hrefs : pt₃.refs (npages 0) = pt₃.tables := by
        rw [Pagetable.refs, npages_zero, frames_zero, add_zero]
      refine ⟨by rw [hrefs]; exact hmv₁₃, ?_, by decide, fun v hv => absurd hv (Nat.not_lt_zero v)⟩
      apply UserMap.top
      · rw [hflat₃, update_of_ne htops.symm, hflat₂, update_self]
      · rw [hflat₃, update_self]
      · intro v h₁ h₂
        rw [hflat₃, update_of_ne h₁, hflat₂, update_of_ne h₂, hzero]
    -- no page for the second: the first is unmapped
    have hmapped : (pt₃.flat TRAMPOLINEVPN).mapped := by
      rw [hflat₃, hflat₂, update_self]
      exact ⟨rfl, rfl⟩
    obtain ⟨km₄, pt₄, hunmap, hmv₄, -, hflat₄⟩ := unmap_top (by decide) hmapped hmv₃.after
    rw [← TRAMPOLINE_eq] at hunmap
    have hnone : ∀ v, (pt₄.flat v).flags.v = false := by
      intro v
      rw [hflat₄, hflat₃, hflat₂]
      by_cases hv : v = TRAMPOLINEVPN
      · rw [hv, update_self]
        rfl
      · rw [update_of_ne hv, update_of_ne hv, hzero]
        rfl
    obtain ⟨km₅, hfreed, hmv₅⟩ := uvmfree_empty hnone hmv₄.after
    refine ⟨km₅, .inl ⟨?_, (hmv₁₃.trans hmv₄).trans hmv₅⟩⟩
    rw [proc_pagetable, hcreate]
    dsimp only
    rw [hmap₂, Result.ok_bind]
    dsimp only
    rw [if_neg (by decide), hmap₃, Result.ok_bind]
    dsimp only
    rw [if_pos (by decide), hunmap, Result.ok_bind]
    rw [hfreed, Result.ok_bind]
  · have hnone : ∀ v, (pt₂.flat v).flags.v = false := by
      intro v
      rw [hflat₂, hzero]
      rfl
    obtain ⟨km₃, hfreed, hmv₃⟩ := uvmfree_empty hnone hmv₂.after
    refine ⟨km₃, .inl ⟨?_, hmv₁₂.trans hmv₃⟩⟩
    rw [proc_pagetable, hcreate]
    dsimp only
    rw [hmap₂, Result.ok_bind]
    dsimp only
    rw [if_pos (by decide), hfreed, Result.ok_bind]

end Image

/-! ## §6. `exec`. -/

variable {path : List UInt8}

/-- What is opened is closed. -/
theorem Fs.closed {fs fs' : Fs} {ip : Nat} (h : fs.begin_op.namei path = (fs', some ip)) :
    ((fs'.ilock ip).iunlockput ip).end_op = fs := by
  rw [Fs.namei] at h
  split at h
  · cases h
  · obtain ⟨rfl, hip⟩ := Prod.mk.inj h
    cases hip
    simp [Fs.begin_op, Fs.ilock, Fs.iunlockput, Fs.end_op]

theorem Fs.closed_none {fs fs' : Fs} (h : fs.begin_op.namei path = (fs', none)) : fs'.end_op = fs := by
  rw [Fs.namei] at h
  split at h
  · cases h
    simp [Fs.begin_op, Fs.end_op]
  · cases h

section Exec

variable {L : Layout} {s : State} {km : Kmem} {R F : Multiset PageRef}

/-- A failed call leaves the process, the file system and the pages of others as they were. -/
def Failed (L : Layout) (s : State) (R : Multiset PageRef) (s' : State) : Prop :=
  s'.p = s.p ∧ s'.fs = s.fs ∧ Moves L s.km s'.km 0 0 R

variable {P : State → Int → Prop}

/-- The label `bad`, before there is a page table. -/
theorem bad_none (s₁ : State) {ip : Nat} (hp : s₁.p = s.p) (hfs : s₁.fs.close (some ip) = s.fs)
    (h : Moves L s.km km 0 0 R) :
    ∃ s' r, bad L s₁ km none (some ip) = .ok (s', r) ∧ (r = -1 ∧ Failed L s R s' ∨ P s' r) :=
  ⟨_, _, rfl, .inl ⟨rfl, hp, hfs, h⟩⟩

/-- The label `bad`, with a page table. -/
theorem bad_some (s₁ : State) (ip : Option Nat) {tf sz : Nat} {pt : Pagetable} (hp : s₁.p = s.p)
    (hfs : s₁.fs.close ip = s.fs) (h : Built L tf s.km R km pt sz) :
    ∃ s' r, bad L s₁ km (some (pt, sz)) ip = .ok (s', r) ∧ (r = -1 ∧ Failed L s R s' ∨ P s' r) := by
  obtain ⟨km', hfree, hmv⟩ := h.free
  refine ⟨{ s₁ with km := km', fs := s₁.fs.close ip }, -1, ?_, .inl ⟨rfl, hp, hfs, hmv⟩⟩
  unfold bad
  dsimp only
  rw [hfree, Result.ok_bind]

/-- A successful call: the process has a new image and its old trapframe page, and the references `F` of all others
are as they were. -/
structure Replaced (L : Layout) (s : State) (F : Multiset PageRef) (s' : State) : Prop where
  trapframe : s'.p.trapframe = s.p.trapframe
  shape : UserMap L s'.p.trapframe s'.p.pagetable.flat (npages s'.p.sz)
  small : s'.p.sz < 2 ^ 63
  fresh : ∀ v, v < npages s'.p.sz → (s'.p.pagetable.flat v).flags.cow = false
  owns : s'.km.Owns L (s'.p.pagetable.refs (npages s'.p.sz) + F)

/-- **The old image is given up.** -/
theorem commit_spec (s₁ : State) {pt : Pagetable} {sz : Nat} (sp entry : Nat) (path : List UInt8) (argc : Nat)
    (hp : s₁.p = s.p) (h : UserMap L s.p.trapframe s.p.pagetable.flat (npages s.p.sz))
    (hb : Built L s.p.trapframe s.km (s.p.pagetable.refs (npages s.p.sz) + F) km pt sz) :
    ∃ s', commit L s₁ km pt sz sp entry path argc = .ok (s', argc) ∧ s'.fs = s₁.fs ∧ Replaced L s F s'
      ∧ s'.p.pagetable = pt ∧ s'.p.sz = sz ∧ ∀ F', F = {own s.p.trapframe} + F' → pt.view s'.km = pt.view km
        ∧ ∀ i ∈ [6, 15], Lib.word (s'.km.mem s.p.trapframe) i = .ofNat sp := by
  -- the words of the trapframe play no part in who owns what
  have hown : (setFrame km s.p.trapframe entry sp).Owns L
      (s.p.pagetable.refs (npages s.p.sz) + (pt.refs (npages sz) + F)) :=
    Kmem.Owns.of_eq hb.moves.after (by abel)
  obtain ⟨km', hfree, hmv⟩ := proc_freepagetable_spec h hown
  refine ⟨{ s₁ with km := km', p := { s.p with pagetable := pt, sz := sz, name := lastElem path } }, ?_, rfl,
    ⟨rfl, hb.shape, hb.small, hb.fresh, hmv.after.of_eq (zero_add _).symm⟩, rfl, rfl, fun F' hF => ⟨?_, fun i hi => ?_⟩⟩
  · rw [commit, hp]
    rw [hfree, Result.ok_bind]
  · -- the page of the trapframe is no page of the image
    have halone := (hb.moves.after.of_eq (S := {own s.p.trapframe} + (pt.refs (npages sz)
      + (s.p.pagetable.refs (npages s.p.sz) + F'))) (by rw [hF]; abel)).alone
    refine (view_same hb.shape (frames_sub_refs _ _ _) hmv.same).trans (view_same hb.shape (fun r hr => hr) fun r hr => ?_)
    refine update_of_ne (fun heq => halone ?_) ..
    exact heq ▸ Multiset.mem_map_of_mem _ (frames_sub_refs _ _ _ r hr)
  · have hsame : km'.mem s.p.trapframe = _ := hmv.same (own s.p.trapframe) (by rw [hF]; simp)
    show Lib.word (km'.mem s.p.trapframe) i = _
    rw [hsame]
    show Lib.word (update km.mem _ _ s.p.trapframe) i = _
    rw [update_self, Lib.word_setWords]
    rcases List.mem_pair.mp hi with rfl | rfl <;> rfl

/-- The new program finds its arguments: `sp` and `a1` of the trapframe are the top of the stack, and the page below the
stack is a guard. -/
def Started (s : State) (argv : List Nat) (s' : State) : Prop :=
  ∃ sp ptrs, (∀ i ∈ [6, 15], Lib.word (s'.km.mem s'.p.trapframe) i = .ofNat sp) ∧ s'.p.sz % PGSIZE = 0 ∧ 2 * PGSIZE ≤ s'.p.sz
    ∧ s'.p.pagetable.user (s'.p.sz / PGSIZE - 2) = false
    ∧ Args (s'.p.pagetable.view s'.km) (argStrs s.km argv) ptrs s'.p.sz sp

variable {argv : List Nat}

/-- **`exec` returns.**  If it fails, nothing has changed; if it succeeds, the process has a new image. -/
theorem exec_spec (h : UserMap L s.p.trapframe s.p.pagetable.flat (npages s.p.sz))
    (ho : s.km.Owns L (s.p.pagetable.refs (npages s.p.sz) + F)) (path : List UInt8)
    (hargv : ∀ page ∈ argv, own page ∈ F) : ∃ s' r, exec L s path argv = .ok (s', r)
      ∧ (r = -1 ∧ Failed L s (s.p.pagetable.refs (npages s.p.sz) + F) s'
        ∨ r = argv.length ∧ s'.fs = s.fs ∧ Replaced L s F s' ∧ ∀ F', F = {own s.p.trapframe} + F' → Started s argv s') := by
  unfold exec
  cases hnamei : s.fs.begin_op.namei path with
  | mk fs found =>
    cases found with
    | none =>
      exact ⟨_, -1, rfl, .inl ⟨rfl, rfl, Fs.closed_none hnamei, Moves.refl (ho.of_eq (zero_add _))⟩⟩
    | some ip =>
      have hclosed : (fs.ilock ip).close (some ip) = s.fs := Fs.closed hnamei
      have hsame := Moves.refl (ho.of_eq (zero_add _))
      dsimp only
      split
      · exact bad_none { s with fs := fs.ilock ip } rfl hclosed hsame
      split
      · exact bad_none { s with fs := fs.ilock ip } rfl hclosed hsame
      obtain ⟨km₁, ⟨hpt, hmv⟩ | ⟨pt₁, hpt, hb₁, -⟩⟩ := proc_pagetable_spec s.p.trapframe ho
      · rw [hpt, Result.ok_bind]
        exact bad_none { s with fs := fs.ilock ip } rfl hclosed hmv
      rw [hpt, Result.ok_bind]
      dsimp only
      have huser : AllUser pt₁ 0 := fun v hv => absurd hv (Nat.not_lt_zero v)
      obtain ⟨km₂, pt₂, sz₂, ok₂, hseg, hb₂⟩ := segments_spec ((fs.ilock ip).data ip)
        (Elfhdr.decode (readi ((fs.ilock ip).data ip) 0 Elfhdr.size)).phnum
        (u32 (Elfhdr.decode (readi ((fs.ilock ip).data ip) 0 Elfhdr.size)).phoff) hb₁ huser
      rw [hseg, Result.ok_bind]
      split
      · exact bad_some { s with fs := fs.ilock ip } (some ip) rfl hclosed hb₂
      -- from here on the inode and the transaction are closed
      obtain ⟨km₃, pt₃, sz₃, ok₃, hstack, hb₃, hsz₃⟩ := allocStack_spec hb₂
      rw [hstack, Result.ok_bind]
      split
      · exact bad_some { s with fs := ((fs.ilock ip).iunlockput ip).end_op } none rfl hclosed hb₃
      rename_i hok₃
      obtain ⟨km₄, sp, hargs, hb₄, hmain⟩ := pushArgv_spec argv hb₃ fun page hpage => Multiset.mem_add.mpr (.inr (hargv page hpage))
      rw [hargs, Result.ok_bind]
      cases sp with
      | none => exact bad_some { s with fs := ((fs.ilock ip).iunlockput ip).end_op } none rfl hclosed hb₄
      | some sp =>
        obtain ⟨s', hrun, hfs, hown, hpt', hsz', hframe⟩ := commit_spec (s := s)
          { s with fs := ((fs.ilock ip).iunlockput ip).end_op } sp
          (Elfhdr.decode (readi ((fs.ilock ip).data ip) 0 Elfhdr.size)).entry path argv.length rfl h hb₄
        refine ⟨s', argv.length, hrun, .inr ⟨rfl, hfs.trans hclosed, hown, fun F' hF => ?_⟩⟩
        obtain ⟨hal, hge, hguard⟩ := hsz₃ (Bool.not_eq_false _ ▸ hok₃)
        obtain ⟨hview, hword⟩ := hframe F' hF
        obtain ⟨ptrs, hptrs⟩ := hmain sp rfl hal
        rw [Started, hown.trapframe, hpt', hsz', hview]
        exact ⟨sp, ptrs, hword, hal, hge, hguard, hptrs⟩

/-- **`exec` succeeds** once the image and the stack are there, if the arguments fit. -/
theorem exec_fits (h : UserMap L s.p.trapframe s.p.pagetable.flat (npages s.p.sz))
    (ho : s.km.Owns L (s.p.pagetable.refs (npages s.p.sz) + F)) {path : List UInt8} (hargv : ∀ page ∈ argv, own page ∈ F)
    {ip sz₂ sz₃ : Nat} {km₁ km₂ km₃ : Kmem} {pt₁ pt₂ pt₃ : Pagetable} (hnamei : s.fs.lookup path = some ip)
    (hhdr : (readi (s.fs.data ip) 0 Elfhdr.size).length = Elfhdr.size)
    (hmagic : (Elfhdr.decode (readi (s.fs.data ip) 0 Elfhdr.size)).magic = ELF_MAGIC)
    (hpt : proc_pagetable L s.km s.p.trapframe = .ok (km₁, some pt₁))
    (hseg : segments L (s.fs.data ip) (Elfhdr.decode (readi (s.fs.data ip) 0 Elfhdr.size)).phnum km₁ pt₁ 0
      (u32 (Elfhdr.decode (readi (s.fs.data ip) 0 Elfhdr.size)).phoff) = .ok (km₂, pt₂, sz₂, true))
    (halloc : allocStack L km₂ pt₂ sz₂ = .ok (km₃, pt₃, sz₃, true)) (hstack : Stack pt₃ (sz₃ - PGSIZE) sz₃)
    (hcount : argv.length ≤ MAXARG)
    (hfit : ((argStrs s.km argv).map fun str => room16 str.length).sum + room16 ((argv.length + 1) * 8) ≤ PGSIZE) :
    ∃ s', exec L s path argv = .ok (s', argv.length) := by
  obtain ⟨km, ⟨hno, -⟩ | ⟨pt, hyes, hb₁, -⟩⟩ := proc_pagetable_spec s.p.trapframe ho
  · rw [hpt] at hno
    cases hno
  rw [hpt] at hyes
  cases hyes
  have huser : AllUser pt₁ 0 := fun v hv => absurd hv (Nat.not_lt_zero v)
  obtain ⟨km₂', pt₂', sz₂', ok₂, hseg', hb₂⟩ := segments_spec (s.fs.data ip)
    (Elfhdr.decode (readi (s.fs.data ip) 0 Elfhdr.size)).phnum
    (u32 (Elfhdr.decode (readi (s.fs.data ip) 0 Elfhdr.size)).phoff) hb₁ huser
  rw [hseg] at hseg'
  cases hseg'
  obtain ⟨km₃', pt₃', sz₃', ok₃, halloc', hb₃, hsz₃⟩ := allocStack_spec hb₂
  rw [halloc] at halloc'
  cases halloc'
  obtain ⟨km₄, sp, hargs⟩ := pushArgv_fits hb₃ (fun page hpage => Multiset.mem_add.mpr (.inr (hargv page hpage))) hstack
    (hsz₃ rfl).1 hcount hfit
  obtain ⟨s', r, hrun, hcase⟩ := exec_spec h ho path hargv
  -- the tests of `exec` on the way to its `commit`
  have hname : s.fs.begin_op.namei path = ({ s.fs.begin_op with ref := update s.fs.ref ip (s.fs.ref ip + 1) }, some ip) := by
    unfold Fs.namei
    rw [show s.fs.begin_op.lookup path = some ip from hnamei]
    rfl
  rcases hcase with ⟨rfl, -⟩ | ⟨rfl, -⟩
  · unfold exec at hrun
    rw [hname] at hrun
    dsimp only at hrun
    rw [show (Fs.ilock { s.fs.begin_op with ref := update s.fs.ref ip (s.fs.ref ip + 1) } ip).data = s.fs.data from rfl,
      if_neg (not_not.mpr hhdr), if_neg (not_not.mpr hmagic), hpt, Result.ok_bind] at hrun
    dsimp only at hrun
    rw [hseg, Result.ok_bind] at hrun
    dsimp only at hrun
    rw [if_neg (by decide), halloc, Result.ok_bind] at hrun
    dsimp only at hrun
    rw [if_neg (by decide), hargs, Result.ok_bind] at hrun
    obtain ⟨_, -, hend⟩ := Lib.bind_ok hrun
    cases hend
  · exact ⟨s', hrun⟩

/-! ## §7. The system call. -/

/-- The references to the pages of `argv`. -/
def argvRefs (argv : List Nat) : Multiset PageRef := (argv.map own : List PageRef)

theorem argvRefs_snoc (argv : List Nat) (page : Nat) : argvRefs (argv ++ [page]) = argvRefs argv + {own page} := by
  rw [argvRefs, List.map_append]
  rfl

theorem argvRefs_cons (page : Nat) (argv : List Nat) : argvRefs (page :: argv) = {own page} + argvRefs argv := rfl

theorem mem_argvRefs {page : Nat} (h : page ∈ argv) (F : Multiset PageRef) : own page ∈ argvRefs argv + F :=
  Multiset.mem_add.mpr (.inl (List.mem_map_of_mem h))

/-- The pages taken for the arguments. -/
theorem fetchArgs_spec (p : Proc) (uargv k : Nat) {km₀ : Kmem} :
    ∀ {km : Kmem} {argv : List Nat}, Moves L km₀ km 0 (argvRefs argv) R →
      ∃ km' argv' ok, fetchArgs p uargv k km argv = (km', argv', ok) ∧ Moves L km₀ km' 0 (argvRefs argv') R := by
  induction k with
  | zero => exact fun h => ⟨_, _, false, rfl, h⟩
  | succ k ih =>
    intro km argv h
    rw [fetchArgs]
    cases fetchaddr km p (u64 (uargv + 8 * argv.length)) with
    | none => exact ⟨km, argv, false, rfl, h⟩
    | some uarg =>
      dsimp only
      split
      · exact ⟨km, argv, true, rfl, h⟩
      rcases kalloc_spec h.after with ⟨hk, -⟩ | ⟨page, km₁, hk, hmv, -⟩
      · rw [hk]
        exact ⟨km, argv, false, rfl, h⟩
      rw [hk]
      dsimp only
      -- the page joins those of the arguments
      have hmoves : ∀ bs, Moves L km₀ (km₁.write page 0 bs) 0 (argvRefs (argv ++ [page])) R := by
        intro bs
        refine h.trans ?_
        rw [argvRefs_snoc]
        exact (hmv.write (Multiset.mem_singleton_self _)).frame.of_eq (by abel) (by abel) rfl
      split
      · exact ih (hmoves _)
      · exact ⟨_, _, false, rfl, hmoves _⟩

/-- The pages of the arguments are freed. -/
theorem freeArgs_spec (argv : List Nat) : ∀ {km : Kmem}, km.Owns L (argvRefs argv + R) →
      ∃ km', argv.foldlM (kfree L) km = .ok km' ∧ Moves L km km' (argvRefs argv) 0 R := by
  induction argv with
  | nil => exact fun ho => ⟨_, rfl, Moves.refl ho⟩
  | cons page argv ih =>
    intro km ho
    rw [argvRefs_cons] at ho ⊢
    obtain ⟨km₁, hk, hmv₁⟩ := kfree_spec (r := own page) (ho.of_eq (add_assoc _ _ _).symm)
    obtain ⟨km₂, hrest, hmv₂⟩ := ih (hmv₁.after.of_eq (zero_add _).symm)
    rw [Lib.Ref.cell_own] at hk
    refine ⟨km₂, ?_, ?_⟩
    · rw [List.foldlM_cons, hk, Result.ok_bind]
      exact hrest
    · exact (hmv₁.frame.of_eq rfl (zero_add _).symm rfl).trans hmv₂

/-- **`sys_exec` returns**, and if it fails nothing has changed. -/
theorem sys_exec_spec (h : UserMap L s.p.trapframe s.p.pagetable.flat (npages s.p.sz))
    (ho : s.km.Owns L (s.p.pagetable.refs (npages s.p.sz) + F)) (upath uargv : Nat) :
    ∃ s' r, sys_exec L s upath uargv = .ok (s', r)
      ∧ (r = -1 ∧ Failed L s (s.p.pagetable.refs (npages s.p.sz) + F) s' ∨ 0 ≤ r ∧ Replaced L s F s') := by
  have hsame := Moves.refl (ho.of_eq (zero_add _))
  unfold sys_exec
  cases hpath : copyinstr s.km s.p.pagetable upath MAXPATH with
  | mk path found =>
    cases found with
    | false => exact ⟨s, -1, rfl, .inl ⟨rfl, rfl, rfl, hsame⟩⟩
    | true =>
      obtain ⟨km₁, argv, ok, hargs, hmv₁⟩ := fetchArgs_spec s.p uargv MAXARG
        (show Moves L s.km s.km 0 (argvRefs []) _ from hsame)
      rw [hargs]
      cases ok with
      | false =>
        obtain ⟨km₂, hfree, hmv₂⟩ := freeArgs_spec argv hmv₁.after
        refine ⟨{ s with km := km₂ }, -1, ?_, .inl ⟨rfl, rfl, rfl, hmv₁.trans hmv₂⟩⟩
        dsimp only
        rw [hfree, Result.ok_bind]
      | true =>
        obtain ⟨s₂, r, hexec, hcase⟩ := exec_spec (s := { s with km := km₁ }) (F := argvRefs argv + F) h
          (hmv₁.after.of_eq (by abel)) path.dropLast fun page hpage => mem_argvRefs hpage F
        dsimp only
        rw [hexec, Result.ok_bind]
        rcases hcase with ⟨rfl, hp, hfs, hmv₂⟩ | ⟨rfl, -, hnew, -⟩
        · have hmv₂' : Moves L km₁ s₂.km (argvRefs argv) (argvRefs argv) (s.p.pagetable.refs (npages s.p.sz) + F) :=
            (hmv₂.of_eq rfl rfl (by abel)).frame.of_eq (zero_add _).symm (zero_add _).symm rfl
          obtain ⟨km₃, hfree, hmv₃⟩ := freeArgs_spec argv hmv₂'.after
          rw [hfree, Result.ok_bind]
          exact ⟨_, -1, rfl, .inl ⟨rfl, hp, hfs, (hmv₁.trans hmv₂').trans hmv₃⟩⟩
        · obtain ⟨km₃, hfree, hmv₃⟩ := freeArgs_spec argv (hnew.owns.of_eq (add_left_comm _ _ _))
          rw [hfree, Result.ok_bind]
          refine ⟨{ s₂ with km := km₃ }, argv.length, rfl, .inr ⟨Int.natCast_nonneg _, hnew.trapframe, hnew.shape,
            hnew.small, hnew.fresh, hmv₃.after.of_eq (zero_add _).symm⟩⟩

end Exec

/-- **`exec` is safe and atomic.**  For every process, file and arguments the system call returns; if it returns -1, the
process, its view of memory, its trapframe, the counter of every page and the file system are as before. -/
theorem sys_exec_atomic {L : Layout} {s : State} {F : Multiset PageRef}
    (h : UserMap L s.p.trapframe s.p.pagetable.flat (npages s.p.sz))
    (ho : s.km.Owns L (s.p.pagetable.refs (npages s.p.sz) + ({own s.p.trapframe} + F))) (upath uargv : Nat) :
    ∃ s' r, sys_exec L s upath uargv = .ok (s', r)
      ∧ (r = -1 → s'.p = s.p ∧ s'.fs = s.fs ∧ s'.km.mem s.p.trapframe = s.km.mem s.p.trapframe
          ∧ s.p.pagetable.view s'.km = s.p.pagetable.view s.km
          ∧ ∀ pa ∈ L.pages, s'.km.num_ref_to_page (pa / PGSIZE) = s.km.num_ref_to_page (pa / PGSIZE)) := by
  obtain ⟨s', r, hrun, hfail⟩ := sys_exec_spec h ho upath uargv
  refine ⟨s', r, hrun, fun hr => ?_⟩
  obtain ⟨-, hp, hfs, hmv⟩ | ⟨hpos, -⟩ := hfail
  swap
  · omega
  refine ⟨hp, hfs, ?_, ?_, ?_⟩
  · exact hmv.same (own s.p.trapframe) (by simp)
  · exact view_same h (frames_sub_refs _ _ _) hmv.same
  · intro pa hpa
    rw [hmv.after.count hpa, hmv.before.count hpa]

/-- A program of one segment, of four bytes at address 0. -/
def elfFile : List UInt8 :=
  [0x7f, 0x45, 0x4c, 0x46] ++ List.replicate 28 0 ++ [64] ++ List.replicate 23 0 ++ [1] ++ List.replicate 7 0
  ++ [1, 0, 0, 0, 5, 0, 0, 0, 120] ++ List.replicate 23 0 ++ [4] ++ List.replicate 7 0 ++ [4] ++ List.replicate 15 0 ++ [1, 2, 3, 4]

/-- The process in a memory `km`, with the arguments "ab" and "c" in two pages. -/
def roomyState (km : Kmem) : State where
  km := (km.write 0x87ff0000 0 [97, 98]).write 0x87fef000 0 [99]
  p := ⟨oomParent, 4096, 0x87ff9000, []⟩
  fs := ⟨fun _ => some 1, fun _ => elfFile, fun _ => 0, [], 0⟩

/-- Eight free pages. -/
def roomyPages : List Nat :=
  [0x87ff8000, 0x87ff7000, 0x87ff6000, 0x87ff5000, 0x87ff4000, 0x87ff3000, 0x87ff2000, 0x87ff1000]

theorem roomy_owns : ∃ km F, roomyPages.foldlM (kfree Layout.small) (fullMem Layout.small) = .ok km
    ∧ (roomyState km).km.Owns Layout.small (oomParent.refs (npages 4096)
      + ({own 0x87ff9000} + (argvRefs [0x87ff0000, 0x87fef000] + F))) := by
  obtain ⟨F, hF⟩ := fullMem_split Layout.small (roomyPages ++ [0x87fff000, 0x87ffc000, 0x87ffb000, 0x87ffe000, 0x87ffd000,
    0x87ffa000, 0x87ff9000, 0x87ff0000, 0x87fef000]) (by decide) (by simp [roomyPages, Layout.mem_pages, Layout.small, PGSIZE, PHYSTOP])
  have hsplit : (fullMem Layout.small).Owns Layout.small (argvRefs roomyPages + (oomParent.refs (npages 4096)
      + ({own 0x87ff9000} + (argvRefs [0x87ff0000, 0x87fef000] + F)))) := by
    refine hF.of_eq ?_
    rw [show npages 4096 = 1 by decide, oomParent_refs]
    show (↑(roomyPages.map own) : Multiset PageRef) + (_ + (↑[own 0x87ff9000] + (↑([0x87ff0000, 0x87fef000].map own) + F))) = _
    rw [← add_assoc, ← add_assoc, ← add_assoc, Multiset.coe_add, Multiset.coe_add, Multiset.coe_add]
    rfl
  obtain ⟨km, hfree, hmv⟩ := freeArgs_spec roomyPages hsplit
  exact ⟨km, F, hfree, hmv.after.of_eq (zero_add _).symm⟩

theorem ok_of_any {α ε : Type} {x : Except ε α} {f : α → Bool} (h : x.toOption.any f = true) : ∃ a, x = .ok a ∧ f a = true := by
  cases x with
  | error e => cases h
  | ok a => exact ⟨a, rfl, h⟩

theorem roomy_map : UserMap Layout.small 0x87ff9000 oomParent.flat (npages 4096) :=
  (show npages 4096 = 1 by decide) ▸ userMap_lowSpace ..

/-- A test of the memory with these pages free. -/
theorem roomy_test {km : Kmem} (h : roomyPages.foldlM (kfree Layout.small) (fullMem Layout.small) = .ok km) (test : Kmem → Bool)
    (hrun : (roomyPages.foldlM (kfree Layout.small) (fullMem Layout.small)).toOption.any test = true) : test km = true := by
  rw [h] at hrun
  exact hrun

/-- The path "a" is at 16 and the list of the one argument "a" at 0. -/
def callState (km : Kmem) : State :=
  { roomyState km with km := (roomyState km).km.write 0x87ffa000 0 ([16] ++ List.replicate 15 0 ++ [97, 0]) }

/-- **A call that is undone**: with the page of the argument, the tables and the segment there is one page left, and the stack
needs two. -/
theorem sys_exec_atomic_undone : ∃ s s', (fetchArgs s.p 0 MAXARG s.km []).2.1 = [0x87ff1000] ∧ (readi (s.fs.data 1) 0 64).length = 64
    ∧ sys_exec Layout.small s 16 0 = .ok (s', -1) ∧ s'.p = s.p ∧ s'.fs = s.fs ∧ s.p.pagetable.view s'.km = s.p.pagetable.view s.km
    ∧ ∀ pa ∈ Layout.small.pages, s'.km.num_ref_to_page (pa / PGSIZE) = s.km.num_ref_to_page (pa / PGSIZE) := by
  obtain ⟨km, F, hfree, ho⟩ := roomy_owns
  obtain ⟨hargs, hrun⟩ := Bool.and_eq_true_iff.mp (roomy_test hfree (fun km =>
    (fetchArgs (callState km).p 0 MAXARG (callState km).km []).2.1 == [0x87ff1000]
      && (sys_exec Layout.small (callState km) 16 0).toOption.any (fun x => x.2 == -1)) (by decide +kernel))
  obtain ⟨⟨s', r⟩, hok, hr⟩ := ok_of_any hrun
  obtain rfl : r = -1 := beq_iff_eq.mp hr
  obtain ⟨s₂, r₂, hrun₂, hsame⟩ := sys_exec_atomic (s := callState km) roomy_map ho 16 0
  obtain ⟨rfl, rfl⟩ := Prod.mk.inj (Except.ok.inj (hok.symm.trans hrun₂))
  obtain ⟨hp, hfs, -, hview, hcounts⟩ := hsame rfl
  exact ⟨callState km, s', beq_iff_eq.mp hargs, (show (readi elfFile 0 64).length = 64 by decide +kernel), hok, hp, hfs, hview, hcounts⟩

/-- **The arguments of a new image**: unless `exec` fails, the stack holds what `Started` says.  It fails if the strings and
the pointers do not fit in the page of the stack. -/
theorem exec_arguments {L : Layout} {s : State} {F : Multiset PageRef} {argv : List Nat}
    (h : UserMap L s.p.trapframe s.p.pagetable.flat (npages s.p.sz))
    (ho : s.km.Owns L (s.p.pagetable.refs (npages s.p.sz) + ({own s.p.trapframe} + (argvRefs argv + F)))) (path : List UInt8) :
    ∃ s' r, exec L s path argv = .ok (s', r) ∧ (r = -1 ∨ r = argv.length ∧ Started s argv s')
      ∧ (PGSIZE < ((argStrs s.km argv).map fun str => room16 str.length).sum + room16 ((argv.length + 1) * 8) → r = -1) := by
  obtain ⟨s', r, hrun, ⟨rfl, -⟩ | ⟨rfl, -, -, hstart⟩⟩ := exec_spec h ho path fun page (hpage : page ∈ argv) =>
    Multiset.mem_add.mpr (.inr (mem_argvRefs hpage F))
  · exact ⟨s', -1, hrun, .inl rfl, fun _ => rfl⟩
  have hstarted := hstart _ rfl
  refine ⟨s', _, hrun, .inr ⟨rfl, hstarted⟩, fun hbig => ?_⟩
  obtain ⟨sp, ptrs, -, -, -, -, hargs⟩ := hstarted
  have hfit := hargs.fit
  rw [show (argStrs s.km argv).length = argv.length from List.length_map ..] at hfit
  omega

/-- The image and the stack of the program can be built, and the stack is page 2. -/
def imageReady (s : State) : Bool :=
  (proc_pagetable Layout.small s.km s.p.trapframe).toOption.any fun x => x.2.any fun pt =>
    (segments Layout.small elfFile 1 x.1 pt 0 64).toOption.any fun y => y.2.2.2
      && (allocStack Layout.small y.1 y.2.1 y.2.2.1).toOption.any fun z => z.2.2.2 && z.2.2.1 == 12288 && z.2.1.user 2

/-- **A call with two arguments**: the program starts with "ab" and "c" on its stack. -/
theorem exec_arguments_two : ∃ s s', argStrs s.km [0x87ff0000, 0x87fef000] = [[97, 98, 0], [99, 0]]
    ∧ exec Layout.small s [47] [0x87ff0000, 0x87fef000] = .ok (s', 2) ∧ Started s [0x87ff0000, 0x87fef000] s' := by
  obtain ⟨km, F, hfree, ho⟩ := roomy_owns
  have hready := roomy_test hfree (fun km => imageReady (roomyState km)) (by decide +kernel)
  have hstrs := beq_iff_eq.mp (roomy_test hfree (fun km => argStrs (roomyState km).km [0x87ff0000, 0x87fef000]
    == [[97, 98, 0], [99, 0]]) (by decide +kernel))
  unfold imageReady at hready
  obtain ⟨x, hx, hready⟩ := ok_of_any hready
  obtain ⟨pt₁, hpt, hready⟩ := (Option.any_eq_true ..).mp hready
  obtain ⟨y, hy, hready⟩ := ok_of_any hready
  obtain ⟨hok₂, hready⟩ := Bool.and_eq_true_iff.mp hready
  obtain ⟨z, hz, hready⟩ := ok_of_any hready
  simp only [Bool.and_eq_true, beq_iff_eq] at hready
  obtain ⟨⟨hok₃, hsz⟩, huser⟩ := hready
  obtain ⟨km₁, pt⟩ := x
  obtain ⟨km₂, pt₂, sz₂, ok₂⟩ := y
  obtain ⟨km₃, pt₃, sz₃, ok₃⟩ := z
  dsimp only at hpt hok₂ hok₃ hsz huser
  subst hpt hok₂ hok₃ hsz
  have hstack : Stack pt₃ (12288 - PGSIZE) 12288 := by
    refine ⟨by decide, fun a hle hlt => ?_⟩
    rw [show a / PGSIZE = 2 by simp only [PGSIZE] at hle ⊢; omega]
    exact huser
  have hargv : ∀ page ∈ [0x87ff0000, 0x87fef000], own page ∈ ({own 0x87ff9000} + (argvRefs [0x87ff0000, 0x87fef000] + F)) :=
    fun page hpage => Multiset.mem_add.mpr (.inr (mem_argvRefs hpage F))
  have hlen : (readi elfFile 0 Elfhdr.size).length = Elfhdr.size := by decide +kernel
  have hmagic : (Elfhdr.decode (readi elfFile 0 Elfhdr.size)).magic = ELF_MAGIC := by decide +kernel
  have hphnum : (Elfhdr.decode (readi elfFile 0 Elfhdr.size)).phnum = 1 := by decide +kernel
  have hphoff : u32 (Elfhdr.decode (readi elfFile 0 Elfhdr.size)).phoff = 64 := by decide +kernel
  rw [← hphnum, ← hphoff] at hy
  obtain ⟨s', hrun⟩ := exec_fits (s := roomyState km) roomy_map ho hargv (rfl : (roomyState km).fs.lookup [47] = some 1)
    hlen hmagic hx hy hz hstack (by decide) (by rw [hstrs]; decide)
  obtain ⟨s₂, r, hrun₂, hres, -⟩ := exec_arguments (s := roomyState km) roomy_map ho [47]
  obtain ⟨rfl, rfl⟩ := Prod.mk.inj (Except.ok.inj (hrun.symm.trans hrun₂))
  rcases hres with hfail | ⟨-, hstart⟩
  · cases hfail
  · exact ⟨roomyState km, s', hstrs, hrun, hstart⟩

end Xv6.Exec
