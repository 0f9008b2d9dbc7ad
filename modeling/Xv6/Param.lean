/-
  Xv6.Param — constants, machine arithmetic and the outcomes of kernel code.

  Constants are those of `param.h`, `memlayout.h`, `riscv.h` and `fs.h`.  A `uint64`
  is a `Nat` reduced modulo `2^64` wherever the source can wrap; a C `int`
  is an `Int` and signed overflow, which C leaves undefined, ends the run.

  A kernel function either returns or ends the run with a `Fault`.
-/
import Mathlib

namespace Xv6

/-! ## §1. Constants. -/

/-- bytes per page -/
def PGSIZE : Nat := 4096

/-- one beyond the highest possible virtual address: `1L << (9 + 9 + 9 + 12 - 1)` -/
def MAXVA : Nat := 2 ^ 38

/-- where physical memory starts -/
def KERNBASE : Nat := 0x80000000

/-- end of the RAM used by the kernel: `KERNBASE + 128*1024*1024` -/
def PHYSTOP : Nat := 0x88000000

/-- the highest page, for user and kernel -/
def TRAMPOLINE : Nat := MAXVA - PGSIZE

/-- the page below it -/
def TRAPFRAME : Nat := TRAMPOLINE - PGSIZE

/-- maximum number of processes -/
def NPROC : Nat := 64

instance : NeZero NPROC := ⟨by decide⟩

/-- block size -/
def BSIZE : Nat := 1024

/-- max exec arguments -/
def MAXARG : Nat := 32

/-- the largest value of a C `int` -/
def INT_MAX : Int := 2 ^ 31 - 1

/-! ## §2. `uint64` arithmetic. -/

/-- the value of a `uint64` expression -/
def u64 (n : Nat) : Nat := n % 2 ^ 64

/-- `PGROUNDUP(sz)` -/
def PGROUNDUP (sz : Nat) : Nat := u64 (sz + PGSIZE - 1) / PGSIZE * PGSIZE

/-- `PGROUNDDOWN(a)` -/
def PGROUNDDOWN (a : Nat) : Nat := a / PGSIZE * PGSIZE

/-- the number of pages of an address space of `sz` bytes -/
def npages (sz : Nat) : Nat := PGROUNDUP sz / PGSIZE

theorem u64_of_lt {n : Nat} (h : n < 2 ^ 64) : u64 n = n := Nat.mod_eq_of_lt h

theorem PGROUNDUP_eq (sz : Nat) : PGROUNDUP sz = npages sz * PGSIZE := by
  simp only [npages, PGROUNDUP, PGSIZE]
  omega

theorem npages_eq {sz : Nat} (h : sz < 2 ^ 63) : npages sz = (sz + 4095) / 4096 := by
  simp only [npages, PGROUNDUP, PGSIZE, u64]
  omega

@[simp] theorem npages_zero : npages 0 = 0 := rfl

theorem npages_mul (n : Nat) (h : n < 2 ^ 51) : npages (n * PGSIZE) = n := by
  rw [npages_eq (by simp only [PGSIZE]; omega)]
  simp only [PGSIZE]
  omega

theorem npages_mono {a b : Nat} (h : a ≤ b) (hb : b < 2 ^ 63) : npages a ≤ npages b := by
  rw [npages_eq hb, npages_eq (by omega)]
  omega

/-- A page number below the size names a page of the address space. -/
theorem div_lt_npages {va sz : Nat} (h : va < sz) (hsz : sz < 2 ^ 63) : va / PGSIZE < npages sz := by
  rw [npages_eq hsz]
  simp only [PGSIZE]
  omega

/-! ## §3. Outcomes. -/

/-- Why a run of the kernel stops. -/
inductive Fault where
  /-- `panic(msg)` -/
  | panic (msg : String)
  /-- the kernel dereferences a null pointer; `kerneltrap` panics -/
  | null
  /-- signed integer overflow, which C leaves undefined -/
  | overflow
  /-- the kernel takes a data page for a page table -/
  | wild
  deriving DecidableEq, Repr

/-- What a function returns. -/
abbrev Result := Except Fault

/-- Why a step of a system is not taken. -/
inductive StepFault where
  /-- the party is not at the point of this step -/
  | disabled
  | fault (f : Fault)

@[simp] theorem Result.ok_bind {α β : Type} (a : α) (f : α → Result β) : (Except.ok a >>= f) = f a := rfl

@[simp] theorem Result.error_bind {α β : Type} (e : Fault) (f : α → Result β) : (Except.error e >>= f) = Except.error e := rfl

/-! ## §4. The linked kernel image. -/

/-- The addresses `kernel.ld` gives the kernel image, which occupies RAM from
`KERNBASE` up to `kend` (the symbol `end`).  The linker places the page-aligned
`trampoline` inside the text, and the image leaves room for the pages that
booting takes. -/
structure Layout where
  etext : Nat
  kend : Nat
  trampoline : Nat
  etext_aligned : etext % PGSIZE = 0
  trampoline_aligned : trampoline % PGSIZE = 0
  kernbase_le : KERNBASE ≤ trampoline
  trampoline_lt : trampoline + PGSIZE ≤ etext
  etext_le : etext ≤ kend
  room : kend + 1024 * PGSIZE ≤ PHYSTOP

/-- A kernel image that leaves 1024 pages. -/
def Layout.small : Layout where
  etext := 0x80001000
  kend := 0x87c00000
  trampoline := 0x80000000
  etext_aligned := rfl
  trampoline_aligned := rfl
  kernbase_le := Nat.le_refl _
  trampoline_lt := Nat.le_refl _
  etext_le := by omega
  room := Nat.le_refl _

/-- The test made by `kfree`, `kfree_original` and `increase_num_ref`: `pa` is
a page the allocator may own. -/
def Layout.inRange (L : Layout) (pa : Nat) : Bool :=
  ¬ (pa % PGSIZE ≠ 0 ∨ pa < L.kend ∨ pa ≥ PHYSTOP)

/-- The pages the allocator manages. -/
@[irreducible] def Layout.pages (L : Layout) : Finset Nat :=
  (Finset.range PHYSTOP).filter fun pa => L.inRange pa

@[simp] theorem Layout.mem_pages (L : Layout) (pa : Nat) :
    pa ∈ L.pages ↔ pa % PGSIZE = 0 ∧ L.kend ≤ pa ∧ pa < PHYSTOP := by
  unfold Layout.pages
  simp only [Layout.inRange, Finset.mem_filter, Finset.mem_range,
    decide_eq_true_eq]
  constructor
  · rintro ⟨h1, h2⟩
    refine ⟨?_, ?_, h1⟩ <;> by_contra hc <;> exact h2 (by omega)
  · rintro ⟨h1, h2, h3⟩
    exact ⟨h3, by omega⟩

theorem Layout.inRange_of_mem {L : Layout} {pa : Nat} (h : pa ∈ L.pages) : L.inRange pa = true := by
  have h' := (L.mem_pages pa).mp h
  simp only [Layout.inRange, decide_eq_true_eq]
  omega

/-- There are at most `128 MB / 4096` pages. -/
theorem Layout.card_pages_le (L : Layout) : L.pages.card ≤ 32768 := by
  have hinj : Set.InjOn (fun pa => (pa - KERNBASE) / PGSIZE) (L.pages : Set Nat) := by
    intro a ha b hb hab
    have ha' := (L.mem_pages a).mp (Finset.mem_coe.mp ha)
    have hb' := (L.mem_pages b).mp (Finset.mem_coe.mp hb)
    have h1 := L.kernbase_le
    have h2 := L.trampoline_lt
    have h3 := L.etext_le
    simp only [PGSIZE, KERNBASE, PHYSTOP] at ha' hb' hab h1 h2 h3
    omega
  rw [← Finset.card_image_of_injOn hinj]
  calc _ ≤ (Finset.range 32768).card := by
        apply Finset.card_le_card
        intro x hx
        obtain ⟨pa, hpa, rfl⟩ := Finset.mem_image.mp hx
        have hpa' := (L.mem_pages pa).mp hpa
        rw [Finset.mem_range]
        simp only [PGSIZE, KERNBASE, PHYSTOP] at hpa' ⊢
        omega
    _ = 32768 := Finset.card_range _

end Xv6
