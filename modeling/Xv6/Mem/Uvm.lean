/-
  Xv6.Mem.Uvm — user address spaces (`uvmcreate` .. `uvmclear` of
  `kernel/vm.c`).

  `UserMap L tf f n` is the shape of an address space of `n` pages with its
  trapframe in page `tf`: valid leaves at the pages below `n`, at TRAPFRAME
  and at TRAMPOLINE, and nothing anywhere else.  Every function below keeps
  it, and each is specified by the references it moves:

    * `uvmdealloc_spec` — gives back the frames above the new size,
    * `uvmalloc_spec`   — all the new pages, or none of them,
    * `uvmfree_spec`    — gives back everything.

  That an address space stays below TRAPFRAME is not checked by the code: it
  holds because its frames are distinct and memory runs out first
  (`UserMap.room`).
-/
import Xv6.Lib.Runs
import Xv6.Mem.Walk

namespace Xv6

open Function (comp_def update update_of_ne update_self)
open Lib.Ref (own cell cell_own)
open Multiset (singleton_add nodup_cons mem_add)

/-! ## §1. The functions. -/

/-- `memmove(dst, src, PGSIZE)` between pages -/
def Kmem.copyPage (km : Kmem) (dst src : Nat) : Kmem :=
  { km with mem := update km.mem dst (km.mem src) }

/-- `uvmcreate()` -/
def uvmcreate (km : Kmem) : Kmem × Option Pagetable :=
  match kalloc km with
  | (km, none) => (km, none)
  | (km, some page) => (km.memset page 0, some (Table.cleared page none))

/-- What `uvmcopy` makes of a PTE: read-only, copy on write. -/
def Pte.markCow (e : Pte) : Pte := { e with flags := { e.flags with w := false, cow := true } }

/-- `uvmclear(pagetable, va)` -/
def uvmclear (km : Kmem) (pt : Pagetable) (va : Nat) : Result (Kmem × Pagetable) := do
  let (km, pt, pte) ← walk km pt va false
  match pte with
  | none => .error (.panic "uvmclear")
  | some e => .ok (km, pt.setPte va { e with flags := { e.flags with u := false } })

section

variable (L : Layout)

/-- `uvmfirst(pagetable, src, sz)`.  The source does not look at the result of
`mappages`. -/
def uvmfirst (km : Kmem) (pt : Pagetable) (src : List UInt8) : Result (Kmem × Pagetable) :=
  if src.length ≥ PGSIZE then .error (.panic "uvmfirst: more than a page")
  else
    match kalloc km with
    | (_, none) => .error .null
    | (km, some mem) => do
        let km := km.memset mem 0
        let (km, pt, _) ← mappages km pt 0 PGSIZE mem (PTE_W ||| PTE_R ||| PTE_X ||| PTE_U)
        .ok (km.write mem 0 src, pt)

/-- `uvmdealloc(pagetable, oldsz, newsz)` -/
def uvmdealloc (km : Kmem) (pt : Pagetable) (oldsz newsz : Nat) :
    Result (Kmem × Pagetable × Nat) :=
  if newsz ≥ oldsz then .ok (km, pt, oldsz)
  else do
    let (km, pt) ←
      if PGROUNDUP newsz < PGROUNDUP oldsz then
        uvmunmap L km pt (PGROUNDUP newsz) ((PGROUNDUP oldsz - PGROUNDUP newsz) / PGSIZE) true
      else .ok (km, pt)
    .ok (km, pt, newsz)

/-- The loop of `uvmalloc`, `k` pages from `a` on; `oldsz` is already rounded
up.  The flag says whether the loop ran to its end. -/
def uvmallocLoop (xperm : Flags) (oldsz : Nat) :
    Nat → Kmem → Pagetable → Nat → Result (Kmem × Pagetable × Bool)
  | 0, km, pt, _ => .ok (km, pt, true)
  | k + 1, km, pt, a =>
    match kalloc km with
    | (km, none) => do
        let (km, pt, _) ← uvmdealloc L km pt a oldsz
        .ok (km, pt, false)
    | (km, some mem) => do
        let km := km.memset mem 0
        let (km, pt, r) ← mappages km pt a PGSIZE mem (PTE_R ||| PTE_U ||| xperm)
        if r ≠ 0 then
          let km ← kfree L km mem
          let (km, pt, _) ← uvmdealloc L km pt a oldsz
          .ok (km, pt, false)
        else uvmallocLoop xperm oldsz k km pt (a + PGSIZE)

/-- `uvmalloc(pagetable, oldsz, newsz, xperm)`: the new size, or 0 on error.
The loop runs for `a = oldsz; a < newsz; a += PGSIZE`. -/
def uvmalloc (km : Kmem) (pt : Pagetable) (oldsz newsz : Nat) (xperm : Flags) :
    Result (Kmem × Pagetable × Nat) :=
  if newsz < oldsz then .ok (km, pt, oldsz)
  else do
    let oldsz := PGROUNDUP oldsz
    let (km, pt, done) ←
      uvmallocLoop L xperm oldsz ((newsz + (PGSIZE - 1) - oldsz) / PGSIZE) km pt oldsz
    .ok (km, pt, if done then newsz else 0)

/-- `uvmfree(pagetable, sz)` -/
def uvmfree (km : Kmem) (pt : Pagetable) (sz : Nat) : Result Kmem := do
  let (km, pt) ←
    if sz > 0 then uvmunmap L km pt 0 (PGROUNDUP sz / PGSIZE) true else .ok (km, pt)
  freewalk L km pt

/-- The loop of `uvmcopy`, `k` pages from `i` on. -/
def uvmcopyLoop : Nat → Kmem → Pagetable → Pagetable → Nat →
    Result (Kmem × Pagetable × Pagetable × Int)
  | 0, km, old, new, _ => .ok (km, old, new, 0)
  | k + 1, km, old, new, i => do
      let (km, old, pte) ← walk km old i false
      match pte with
      | none => .error (.panic "uvmcopy: pte should exist")
      | some e =>
        if e.flags.v = false then .error (.panic "uvmcopy: page not present")
        else
          let old := old.setPte i e.markCow
          let km ← increase_num_ref L km e.pa
          let (km, new, r) ← mappages km new i PGSIZE e.pa e.markCow.flags
          if r ≠ 0 then
            let (km, new) ← uvmunmap L km new 0 (i / PGSIZE) true
            .ok (km, old, new, -1)
          else uvmcopyLoop k km old new (i + PGSIZE)

/-- `uvmcopy(old, new, sz)`; the loop runs for `i = 0; i < sz; i += PGSIZE`. -/
def uvmcopy (km : Kmem) (old new : Pagetable) (sz : Nat) :
    Result (Kmem × Pagetable × Pagetable × Int) :=
  uvmcopyLoop L ((sz + (PGSIZE - 1)) / PGSIZE) km old new 0

end

/-! ## §2. The shape of an address space. -/

/-- page numbers of TRAPFRAME and TRAMPOLINE -/
def TRAPFRAMEVPN : Nat := 2 ^ 26 - 2
/-- the page number of TRAMPOLINE -/
def TRAMPOLINEVPN : Nat := 2 ^ 26 - 1

theorem TRAPFRAME_eq : TRAPFRAME = TRAPFRAMEVPN * PGSIZE := by decide
theorem TRAMPOLINE_eq : TRAMPOLINE = TRAMPOLINEVPN * PGSIZE := by decide

/-- **The shape of a user address space** of `n` pages, on the flat view. -/
structure UserMap (L : Layout) (tf : Nat) (f : Nat → Pte) (n : Nat) : Prop where
  valid : ∀ v, v < n → (f v).flags.v = true
  readable : ∀ v, v < n → (f v).flags.r = true
  cow : ∀ v, v < n → (f v).flags.cow = true → (f v).flags.w = false
  nodup : ((frames f 0 n).map cell).Nodup
  tramp : f TRAMPOLINEVPN = Pte.map L.trampoline (PTE_R ||| PTE_X)
  trapf : f TRAPFRAMEVPN = Pte.map tf (PTE_R ||| PTE_W)
  rest : ∀ v, n ≤ v → v ≠ TRAPFRAMEVPN → v ≠ TRAMPOLINEVPN → f v = Pte.zero
  bound : n ≤ TRAPFRAMEVPN

/-- Everything a user page table refers to: its tables and its user frames. -/
def Pagetable.refs (pt : Pagetable) (n : Nat) : Multiset PageRef :=
  pt.tables + frames pt.flat 0 n

theorem frames_cells (f : Nat → Pte) (v n : Nat) :
    (frames f v n).map cell = ((List.range' v n).map fun i => (f i).pa : List Nat) := by
  simp [frames, comp_def]

theorem frames_card (f : Nat → Pte) (v n : Nat) : (frames f v n).card = n := by
  simp [frames]

/-- Frames of one address space are distinct: equal frames, equal pages. -/
theorem frames_inj {f : Nat → Pte} {n i j : Nat} (h : ((frames f 0 n).map cell).Nodup)
    (hi : i < n) (hj : j < n) (heq : (f i).pa = (f j).pa) : i = j := by
  rw [frames_cells, Multiset.coe_nodup] at h
  have hinj := List.inj_on_of_nodup_map h
  exact hinj (List.mem_range'_1.mpr ⟨Nat.zero_le i, by omega⟩)
    (List.mem_range'_1.mpr ⟨Nat.zero_le j, by omega⟩) heq

/-- One page set apart: its reference and the rest, which a new entry keeps. -/
theorem frames_split {f : Nat → Pte} {n v : Nat} (hv : v < n) : ∃ rest, frames f 0 n = {(f v).ref} + rest
      ∧ ∀ e, frames (update f v e) 0 n = {e.ref} + rest := by
  have hcut : ∀ g : Nat → Pte, frames g 0 n
      = frames g 0 v + ({(g v).ref} + frames g (v + 1) (n - v - 1)) := by
    intro g
    have h₁ := frames_add g 0 v (n - v)
    rw [show v + (n - v) = n by omega, Nat.zero_add] at h₁
    rw [h₁, show n - v = (n - v - 1) + 1 by omega, frames_succ]
    rfl
  refine ⟨frames f 0 v + frames f (v + 1) (n - v - 1), ?_, fun e => ?_⟩
  · rw [hcut]
    abel
  · rw [hcut, update_self,
      frames_congr (g := f) fun i _ hi => by rw [update_of_ne (by omega)],
      frames_congr (v := v + 1) (g := f) fun i hi _ => by rw [update_of_ne (by omega)]]
    abel

namespace UserMap

variable {L : Layout} {tf : Nat} {f g : Nat → Pte} {n m : Nat}

theorem mapped (h : UserMap L tf f n) {v : Nat} (hv : v < n) : (f v).mapped :=
  ⟨h.valid v hv, by simp [Pte.isLeaf, h.readable v hv]⟩

/-- Distinct frames are at most as many as there are pages of memory, so an
address space stays far below TRAPFRAME. -/
theorem room {km : Kmem} {R : Multiset PageRef} (h : UserMap L tf f n) (ho : km.Owns L R)
    (hle : frames f 0 n ≤ R) : n ≤ 32768 := by
  have hcard := Lib.Owned.card_le_of_nodup L.pages ho hle h.nodup
  rw [frames_card] at hcard
  exact hcard.trans L.card_pages_le

/-- The address space without the pages from `m` on. -/
theorem shrink (h : UserMap L tf f n) (hm : m ≤ n) : UserMap L tf (clearRange f m (n - m)) m := by
  have hlow : ∀ v, v < m → clearRange f m (n - m) v = f v := by
    intro v hv
    exact if_neg (by omega)
  have hhigh : ∀ v, n ≤ v → clearRange f m (n - m) v = f v := by
    intro v hv
    exact if_neg (by omega)
  have hb := h.bound
  constructor
  · intro v hv
    rw [hlow v hv]
    exact h.valid v (by omega)
  · intro v hv
    rw [hlow v hv]
    exact h.readable v (by omega)
  · intro v hv
    rw [hlow v hv]
    exact h.cow v (by omega)
  · rw [frames_congr (g := f) fun v _ hv => by rw [hlow v (by omega)]]
    have hnd := h.nodup
    rw [show n = m + (n - m) by omega, frames_add, Multiset.map_add] at hnd
    exact Multiset.nodup_of_le (Multiset.le_add_right _ _) hnd
  · rw [hhigh _ (by simp only [TRAPFRAMEVPN, TRAMPOLINEVPN] at *; omega)]
    exact h.tramp
  · rw [hhigh _ hb]
    exact h.trapf
  · intro v hv h1 h2
    by_cases hvn : v < n
    · exact if_pos (by omega)
    · rw [hhigh v (by omega)]
      exact h.rest v (by omega) h1 h2
  · omega

/-- One more page, in a frame the address space does not have. -/
theorem grow (h : UserMap L tf f n) (pa : Nat) (perm : Flags) (hr : perm.r = true)
    (hcow : perm.cow = true → perm.w = false) (hn : n < TRAPFRAMEVPN) (hpa : pa ∉ (frames f 0 n).map cell) :
    UserMap L tf (update f n (Pte.map pa perm)) (n + 1) := by
  have hlow : ∀ v, v < n → update f n (Pte.map pa perm) v = f v := by
    intro v hv
    exact update_of_ne (by omega) ..
  have hat : update f n (Pte.map pa perm) n = Pte.map pa perm := update_self ..
  have hcases : ∀ v, v < n + 1 → v < n ∨ v = n := fun v hv => by omega
  constructor
  · intro v hv
    rcases hcases v hv with hv | rfl
    · rw [hlow v hv]; exact h.valid v hv
    · rw [hat]; simp [Pte.map, Flags.or_def, PTE_V]
  · intro v hv
    rcases hcases v hv with hv | rfl
    · rw [hlow v hv]; exact h.readable v hv
    · rw [hat]; simp [Pte.map, Flags.or_def, hr]
  · intro v hv
    rcases hcases v hv with hv | rfl
    · rw [hlow v hv]; exact h.cow v hv
    · rw [hat]; simpa [Pte.map, Flags.or_def, PTE_V, Flags.none] using hcow
  · rw [frames_concat, Multiset.map_add, Nat.zero_add, hat,
      frames_congr (g := f) fun v _ hv => by rw [hlow v (by omega)]]
    rw [Multiset.map_singleton, Pte.ref_cell, add_comm, singleton_add,
      nodup_cons]
    exact ⟨hpa, h.nodup⟩
  · rw [update_of_ne (by simp only [TRAPFRAMEVPN, TRAMPOLINEVPN] at *; omega)]
    exact h.tramp
  · rw [update_of_ne (by omega)]
    exact h.trapf
  · intro v hv h1 h2
    rw [update_of_ne (by omega)]
    exact h.rest v (by omega) h1 h2
  · omega

/-- Another entry for a page of the address space, in the same frame or in one
the address space does not have. -/
theorem replace (h : UserMap L tf f n) {v : Nat} (hv : v < n) {e : Pte}
    (hvalid : e.flags.v = true) (hr : e.flags.r = true) (hcow : e.flags.cow = true → e.flags.w = false)
    (hpa : e.pa = (f v).pa ∨ e.pa ∉ (frames f 0 n).map cell) : UserMap L tf (update f v e) n := by
  have hother : ∀ i, i ≠ v → update f v e i = f i := fun i hi =>
    update_of_ne hi ..
  have hb := h.bound
  constructor
  · intro i hi
    by_cases hiv : i = v
    · rw [hiv, update_self]; exact hvalid
    · rw [hother i hiv]; exact h.valid i hi
  · intro i hi
    by_cases hiv : i = v
    · rw [hiv, update_self]; exact hr
    · rw [hother i hiv]; exact h.readable i hi
  · intro i hi
    by_cases hiv : i = v
    · rw [hiv, update_self]; exact hcow
    · rw [hother i hiv]; exact h.cow i hi
  · obtain ⟨rest, hf, he⟩ := frames_split (f := f) hv
    have hnd := h.nodup
    rw [hf, singleton_add, Multiset.map_cons, nodup_cons, Pte.ref_cell] at hnd
    rw [he, singleton_add, Multiset.map_cons, nodup_cons, Pte.ref_cell]
    refine ⟨?_, hnd.2⟩
    rcases hpa with hpa | hpa
    · rw [hpa]; exact hnd.1
    · intro hin
      apply hpa
      rw [hf, singleton_add, Multiset.map_cons]
      exact Multiset.mem_cons_of_mem hin
  · rw [hother _ (by simp only [TRAPFRAMEVPN, TRAMPOLINEVPN] at *; omega)]
    exact h.tramp
  · rw [hother _ (by omega)]
    exact h.trapf
  · intro i hi h1 h2
    rw [hother i (by omega)]
    exact h.rest i hi h1 h2
  · exact hb

end UserMap

section Specs

variable {L : Layout} {km : Kmem} {F : Multiset PageRef} {tf n : Nat} {pt : Pagetable}

/-! ## §3. Shrinking and growing. -/

/-- **`uvmdealloc`** gives back the frames above the new size. -/
theorem uvmdealloc_spec (oldsz newsz : Nat) (h : UserMap L tf pt.flat (npages oldsz))
    (hsz : oldsz < 2 ^ 63) (ho : km.Owns L (pt.refs (npages oldsz) + F)) :
    ∃ km' pt' r, uvmdealloc L km pt oldsz newsz = .ok (km', pt', r) ∧ r = min oldsz newsz ∧ npages r ≤ npages oldsz
      ∧ Moves L km km' (pt.tables + frames pt.flat (npages r) (npages oldsz - npages r))
          pt'.tables (frames pt.flat 0 (npages r) + F) ∧ pt'.tables = pt.tables
      ∧ pt'.flat = clearRange pt.flat (npages r) (npages oldsz - npages r) ∧ UserMap L tf pt'.flat (npages r) := by
  have hnone : clearRange pt.flat (npages oldsz) 0 = pt.flat := by
    funext i
    exact if_neg (by omega)
  by_cases hge : newsz ≥ oldsz
  · refine ⟨km, pt, oldsz, by simp [uvmdealloc, hge], by omega, Nat.le_refl _, ?_, rfl, ?_, h⟩
    · rw [Nat.sub_self, frames_zero, add_zero]
      refine Moves.refl (ho.of_eq ?_)
      rw [Pagetable.refs]
      abel
    · rw [Nat.sub_self, hnone]
  have hle : npages newsz ≤ npages oldsz := npages_mono (by omega) hsz
  have hmin : newsz = min oldsz newsz := by omega
  have hmoves : km.Owns L (pt.tables + frames pt.flat (npages newsz)
      (npages oldsz - npages newsz) + (frames pt.flat 0 (npages newsz) + F)) := by
    refine ho.of_eq ?_
    have hsplit := frames_add pt.flat 0 (npages newsz) (npages oldsz - npages newsz)
    rw [show npages newsz + (npages oldsz - npages newsz) = npages oldsz by omega,
      Nat.zero_add] at hsplit
    rw [Pagetable.refs, hsplit]
    abel
  by_cases hup : PGROUNDUP newsz < PGROUNDUP oldsz
  · have hcount : (PGROUNDUP oldsz - PGROUNDUP newsz) / PGSIZE
        = npages oldsz - npages newsz := by
      rw [PGROUNDUP_eq, PGROUNDUP_eq, ← Nat.sub_mul, va_div]
    have hb := h.bound
    obtain ⟨km', pt', hrun, hmv, htab, hflat⟩ := uvmunmap_free_spec
      (by simp only [TRAPFRAMEVPN, MAXVPN] at *; omega)
      (fun i _ hi => h.mapped (by omega)) hmoves
    rw [← PGROUNDUP_eq] at hrun
    refine ⟨km', pt', newsz, ?_, hmin, hle, hmv, htab, hflat, ?_⟩
    · simp only [uvmdealloc, hge, if_false, hup, if_true, hcount, hrun]
      rfl
    · rw [hflat]
      exact h.shrink hle
  -- both sizes end in the same page
  have heq : npages newsz = npages oldsz := by
    rw [PGROUNDUP_eq, PGROUNDUP_eq] at hup
    simp only [PGSIZE] at hup
    omega
  refine ⟨km, pt, newsz, ?_, hmin, hle, ?_, rfl, ?_, ?_⟩
  · simp only [uvmdealloc, hge, if_false, hup]
    rfl
  · rw [heq, Nat.sub_self, frames_zero] at hmoves ⊢
    rw [add_zero] at hmoves ⊢
    exact Moves.refl hmoves
  · rw [heq, Nat.sub_self, hnone]
  · rw [heq]
    exact h

/-- `uvmdealloc` between page-aligned sizes. -/
theorem uvmdealloc_pages_spec {v : Nat} (hnv : n ≤ v) (h : UserMap L tf pt.flat v)
    (ho : km.Owns L (pt.tables + frames pt.flat n (v - n) + (frames pt.flat 0 n + F))) :
    ∃ km' pt', uvmdealloc L km pt (v * PGSIZE) (n * PGSIZE) = .ok (km', pt', n * PGSIZE)
      ∧ Moves L km km' (pt.tables + frames pt.flat n (v - n)) pt'.tables (frames pt.flat 0 n + F)
      ∧ pt'.flat = clearRange pt.flat n (v - n) := by
  have hb := h.bound
  have hv : npages (v * PGSIZE) = v := npages_mul v (by simp only [TRAPFRAMEVPN] at hb; omega)
  have hn : npages (n * PGSIZE) = n := npages_mul n (by simp only [TRAPFRAMEVPN] at hb; omega)
  have hle : n * PGSIZE ≤ v * PGSIZE := Nat.mul_le_mul_right _ hnv
  have hsplit := frames_add pt.flat 0 n (v - n)
  rw [show n + (v - n) = v by omega, Nat.zero_add] at hsplit
  have hrefs : km.Owns L (pt.refs (npages (v * PGSIZE)) + F) := by
    rw [hv, Pagetable.refs, hsplit]
    exact ho.of_eq (by abel)
  obtain ⟨km', pt', r, hrun, hr, -, hmv, -, hflat, -⟩ :=
    uvmdealloc_spec (v * PGSIZE) (n * PGSIZE) (by rw [hv]; exact h)
      (by simp only [TRAPFRAMEVPN, PGSIZE] at *; omega) hrefs
  rw [Nat.min_eq_right hle] at hr
  subst hr
  rw [hv, hn] at hmv hflat
  exact ⟨km', pt', hrun, hmv, hflat⟩

/-- **One turn of `uvmalloc`** at page `v`: no page is left, or the page is
mapped to a zeroed frame of its own, or no page is left for a table and the
frame is freed again. -/
theorem uvmalloc_turn {v : Nat} {perm : Flags} (hr : perm.r = true) (hcow : perm.cow = false)
    (h : UserMap L tf pt.flat v) (ho : km.Owns L (pt.tables + (frames pt.flat 0 v + F))) :
    (kalloc km = (km, none) ∧ L.pages.card ≤ (pt.refs v + F).card) ∨ ∃ mem km₁, kalloc km = (km₁, some mem) ∧
      ((∃ km₂ pt₂, mappages (km₁.memset mem 0) pt (v * PGSIZE) PGSIZE mem perm = .ok (km₂, pt₂, 0)
          ∧ pt₂.flat = update pt.flat v (Pte.map mem perm) ∧ UserMap L tf pt₂.flat (v + 1)
          ∧ Moves L km km₂ pt.tables (pt₂.tables + {own mem}) (frames pt.flat 0 v + F)
          ∧ (km₂.mem mem = fun _ => 0) ∧ pt₂.tables.card ≤ pt.tables.card + 2)
      ∨ ∃ km₂ pt₂ km₃, mappages (km₁.memset mem 0) pt (v * PGSIZE) PGSIZE mem perm = .ok (km₂, pt₂, -1)
          ∧ kfree L km₂ mem = .ok km₃ ∧ pt₂.flat = pt.flat ∧ Moves L km km₃ pt.tables pt₂.tables (frames pt.flat 0 v + F)
          ∧ L.pages.card ≤ (pt.refs v + F).card + 3) := by
  rcases kalloc_spec ho with ⟨hk, hempty⟩ | ⟨mem, km₁, hk, hmv₁, -⟩
  · left
    refine ⟨hk, ?_⟩
    have hcard := ho.exhausted hempty
    rw [Pagetable.refs, add_assoc]
    exact hcard
  right
  refine ⟨mem, km₁, hk, ?_⟩
  have hmv₁' : Moves L km (km₁.memset mem 0) _ _ _ := hmv₁.memset (by simp)
  -- the new page is none of ours, and there is room below TRAPFRAME for it
  have hfresh : mem ∉ (frames pt.flat 0 v).map cell := by
    intro hmem
    refine hmv₁.after.alone ?_
    simp only [Multiset.map_add, mem_add]
    exact .inr (.inl hmem)
  have hroom : v ≤ 32768 := by
    refine h.room ho ?_
    rw [add_left_comm]
    exact Multiset.le_add_right _ _
  have hfree : (pt.flat (v * PGSIZE / PGSIZE)).flags.v = false := by
    rw [va_div, h.rest v (Nat.le_refl v) (by simp only [TRAPFRAMEVPN]; omega)
      (by simp only [TRAMPOLINEVPN]; omega)]
    rfl
  obtain ⟨km₂, pt₂, r, hmap, hmv₂, hcard₂, hres⟩ := mappages_page_spec mem perm
    (F := {own mem} + (frames pt.flat 0 v + F)) (Nat.mul_mod_left v PGSIZE) (va_lt (by simp only [MAXVPN]; omega)) hfree
    (hmv₁'.after.of_eq (by abel))
  rw [va_div] at hres
  rcases hres with ⟨rfl, hflat₂⟩ | ⟨rfl, hflat₂, hempty⟩
  · left
    refine ⟨km₂, pt₂, hmap, hflat₂, ?_, ?_, ?_, hcard₂⟩
    · rw [hflat₂]
      exact h.grow mem perm hr (by rw [hcow]; exact fun hc => absurd hc (by simp))
        (by simp only [TRAPFRAMEVPN]; omega) hfresh
    · exact hmv₁'.seq hmv₂ pt.tables {own mem} rfl rfl (by abel) (by abel) rfl
    · have hmem := hmv₂.same (own mem) (by simp)
      rw [cell_own] at hmem
      rw [hmem]
      simp [Kmem.memset]
  right
  obtain ⟨km₃, hkf, hmv₃⟩ := kfree_spec (r := own mem)
    (R := pt₂.tables + (frames pt.flat 0 v + F)) (hmv₂.after.of_eq (by abel))
  refine ⟨km₂, pt₂, km₃, hmap, hkf, hflat₂, ?_, ?_⟩
  · have hmv₁₂ : Moves L km km₂ pt.tables (pt₂.tables + {own mem}) (frames pt.flat 0 v + F) :=
      hmv₁'.seq hmv₂ pt.tables {own mem} rfl rfl (by abel) (by abel) rfl
    exact hmv₁₂.seq hmv₃ 0 pt₂.tables (by abel) rfl (by abel) (by abel) (by abel)
  · have hc := hmv₂.after.exhausted hempty
    simp only [Pagetable.refs, Multiset.card_add, Multiset.card_singleton,
      frames_card] at hc ⊢
    omega

/-- **The loop of `uvmalloc`**: all the pages from `v` on, zeroed, or none of
the pages from `n` (the rounded old size) on. -/
theorem uvmallocLoop_spec {xperm : Flags} (hx : xperm.cow = false) (n k : Nat) :
    ∀ (km : Kmem) (pt : Pagetable) (v : Nat), n ≤ v → UserMap L tf pt.flat v →
      km.Owns L (pt.tables + (frames pt.flat 0 v + F)) →
      ∃ km' pt' b, uvmallocLoop L xperm (n * PGSIZE) k km pt (v * PGSIZE) = .ok (km', pt', b) ∧ ((b = true
            ∧ Moves L km km' pt.tables (pt'.tables + frames pt'.flat v k) (frames pt.flat 0 v + F)
            ∧ UserMap L tf pt'.flat (v + k) ∧ (∀ i, i < v → pt'.flat i = pt.flat i) ∧ ∀ i, v ≤ i → i < v + k →
                (pt'.flat i).flags = PTE_R ||| PTE_U ||| xperm ||| PTE_V ∧ km'.mem (pt'.flat i).pa = fun _ => 0)
          ∨ (b = false ∧ Moves L km km' (pt.tables + frames pt.flat n (v - n)) pt'.tables (frames pt.flat 0 n + F)
            ∧ pt'.flat = clearRange pt.flat n (v - n) ∧ L.pages.card ≤ (pt.refs v + F).card + 3 * k)) := by
  have hperm : (PTE_R ||| PTE_U ||| xperm).cow = false := by
    simp [Flags.or_def, PTE_R, PTE_U, Flags.none, hx]
  have hpermr : (PTE_R ||| PTE_U ||| xperm).r = true := by
    simp [Flags.or_def, PTE_R]
  induction k with
  | zero =>
    intro km pt v _ h ho
    refine ⟨km, pt, true, rfl, .inl ⟨rfl, ?_, h, fun _ _ => rfl, ?_⟩⟩
    · rw [frames_zero, add_zero]
      exact Moves.refl ho
    · intro i h₁ h₂
      omega
  | succ k ih =>
    intro km pt v hnv h ho
    have hsplit := frames_add pt.flat 0 n (v - n)
    rw [show n + (v - n) = v by omega, Nat.zero_add] at hsplit
    rcases uvmalloc_turn hpermr hperm h ho with ⟨hk, hcard⟩ | ⟨mem, km₁, hk, hturn⟩
    · -- no page left: undo
      obtain ⟨km', pt', hrun, hmv, hflat⟩ := uvmdealloc_pages_spec (F := F) hnv h
        (ho.of_eq (by rw [hsplit]; abel))
      refine ⟨km', pt', false, ?_, .inr ⟨rfl, hmv, hflat, by omega⟩⟩
      simp only [uvmallocLoop, hk, hrun, Result.ok_bind]
    rcases hturn with ⟨km₂, pt₂, hmap, hflat₂, h₂, hmv₂, hzero, hcard₂⟩ |
      ⟨km₂, pt₂, km₃, hmap, hkf, hflat₂, hmv₂, hcard₂⟩
    · -- mapped: go on with one more page
      have hlow : ∀ i, i < v → pt₂.flat i = pt.flat i := fun i hi => by
        rw [hflat₂, update_of_ne (by omega)]
      have hat : pt₂.flat v = Pte.map mem (PTE_R ||| PTE_U ||| xperm) := by
        rw [hflat₂, update_self]
      have hgrown : frames pt₂.flat 0 (v + 1) = frames pt.flat 0 v + {own mem} := by
        have href : (pt₂.flat v).ref = own mem := by
          rw [hat, Pte.ref, Pte.map]
          simp [Flags.or_def, PTE_R, PTE_U, PTE_V, Flags.none, hx]
        rw [frames_concat, Nat.zero_add, href,
          frames_congr (g := pt.flat) fun i _ hi => by rw [hlow i (by omega)]]
      obtain ⟨km', pt', b, hrun, hpost⟩ := ih km₂ pt₂ (v + 1) (by omega) h₂
        (hmv₂.after.of_eq (by rw [hgrown]; abel))
      refine ⟨km', pt', b, ?_, ?_⟩
      · simp only [uvmallocLoop, hk, hmap, Result.ok_bind, ne_eq, not_true_eq_false,
          if_false, va_succ]
        exact hrun
      rcases hpost with ⟨hb, hmv', h', hlow', hhigh'⟩ | ⟨hb, hmv', hflat', hcard'⟩
      · left
        rw [hgrown] at hmv'
        rw [show v + 1 + k = v + (k + 1) by omega] at h' hhigh'
        have hsame : pt'.flat v = pt₂.flat v := hlow' v (by omega)
        refine ⟨hb, ?_, h', fun i hi => (hlow' i (by omega)).trans (hlow i hi), ?_⟩
        · have href : (pt'.flat v).ref = own mem := by
            rw [hsame, hat, Pte.ref, Pte.map]
            simp [Flags.or_def, PTE_R, PTE_U, PTE_V, Flags.none, hx]
          rw [frames_succ, href]
          exact hmv₂.seq hmv' 0 {own mem} (by abel) (by abel) (by abel) (by abel) (by abel)
        intro i hvi hi
        by_cases hiv : i = v
        · subst hiv
          have hmem := hmv'.same (own mem) (by simp)
          rw [hsame, hat]
          exact ⟨rfl, hmem.trans hzero⟩
        · exact hhigh' i (by omega) hi
      right
      have hbase : frames pt₂.flat 0 n = frames pt.flat 0 n :=
        frames_congr fun i _ hi => by rw [hlow i (by omega)]
      have hnew : frames pt₂.flat n (v + 1 - n) = frames pt.flat n (v - n) + {own mem} := by
        apply add_left_cancel (a := frames pt.flat 0 n)
        rw [← hbase, show frames pt₂.flat 0 n + frames pt₂.flat n (v + 1 - n)
            = frames pt₂.flat 0 (v + 1) by
          rw [show v + 1 = n + (v + 1 - n) by omega, frames_add, Nat.zero_add]
          simp only [Nat.add_sub_cancel_left], hgrown, hsplit, hbase]
        abel
      rw [hbase, hnew] at hmv'
      refine ⟨hb, ?_, ?_, ?_⟩
      · exact hmv₂.seq hmv' (frames pt.flat n (v - n)) 0 (by rw [hsplit]; abel) (by abel)
          (by abel) rfl (by abel)
      · -- the page just mapped was not mapped before
        rw [hflat', hflat₂]
        funext i
        simp only [clearRange]
        by_cases hin : n ≤ i ∧ i < n + (v + 1 - n)
        · rw [if_pos hin]
          by_cases hiv : i = v
          · have hb₂ := h₂.bound
            rw [if_neg (by omega), hiv, h.rest v (Nat.le_refl v) (by omega)
              (by simp only [TRAPFRAMEVPN, TRAMPOLINEVPN] at *; omega)]
          · rw [if_pos (by omega)]
        · rw [if_neg hin, if_neg (by omega), update_of_ne (by omega)]
      · simp only [Pagetable.refs, Multiset.card_add, frames_card] at hcard' ⊢
        omega
    · -- no page left for a table: undo
      have hmap₂ : UserMap L tf pt₂.flat v := by rw [hflat₂]; exact h
      have ho₂ : km₃.Owns L (pt₂.tables + frames pt₂.flat n (v - n)
          + (frames pt₂.flat 0 n + F)) := by
        rw [hflat₂]
        exact hmv₂.after.of_eq (by rw [hsplit]; abel)
      obtain ⟨km', pt', hrun, hmv', hflat'⟩ := uvmdealloc_pages_spec hnv hmap₂ ho₂
      rw [hflat₂] at hmv' hflat'
      refine ⟨km', pt', false, ?_, .inr ⟨rfl, ?_, hflat', by omega⟩⟩
      · simp [uvmallocLoop, hk, hmap, hkf, hrun]
      · exact hmv₂.seq hmv' (frames pt.flat n (v - n)) 0 (by rw [hsplit]; abel) (by abel)
          (by abel) rfl (by abel)

/-- **`uvmalloc`**: nothing to do, or all the new pages, or none of them. -/
theorem uvmalloc_spec {xperm : Flags} {oldsz newsz : Nat} (hx : xperm.cow = false)
    (h : UserMap L tf pt.flat (npages oldsz)) (hsz : oldsz < 2 ^ 63) (ho : km.Owns L (pt.refs (npages oldsz) + F)) :
    ∃ km' pt' r, uvmalloc L km pt oldsz newsz xperm = .ok (km', pt', r)
      ∧ ((newsz < oldsz ∧ r = oldsz ∧ km' = km ∧ pt' = pt) ∨ (oldsz ≤ newsz ∧ r = newsz ∧ newsz < 2 ^ 63
          ∧ Moves L km km' pt.tables (pt'.tables + frames pt'.flat (npages oldsz) (npages newsz - npages oldsz))
              (frames pt.flat 0 (npages oldsz) + F) ∧ UserMap L tf pt'.flat (npages newsz)
          ∧ (∀ i, i < npages oldsz → pt'.flat i = pt.flat i) ∧ ∀ i, npages oldsz ≤ i → i < npages newsz →
              (pt'.flat i).flags = PTE_R ||| PTE_U ||| xperm ||| PTE_V ∧ km'.mem (pt'.flat i).pa = fun _ => 0)
        ∨ (oldsz ≤ newsz ∧ r = 0 ∧ Moves L km km' pt.tables pt'.tables (frames pt.flat 0 (npages oldsz) + F)
          ∧ pt'.flat = pt.flat ∧ L.pages.card ≤ (pt.refs (npages oldsz) + F).card
              + 3 * ((newsz + (PGSIZE - 1) - PGROUNDUP oldsz) / PGSIZE))) := by
  by_cases hlt : newsz < oldsz
  · exact ⟨km, pt, oldsz, by simp [uvmalloc, hlt], .inl ⟨hlt, rfl, rfl, rfl⟩⟩
  have hle : oldsz ≤ newsz := by omega
  obtain ⟨km', pt', b, hrun, hpost⟩ := uvmallocLoop_spec (F := F) hx (npages oldsz)
    ((newsz + (PGSIZE - 1) - PGROUNDUP oldsz) / PGSIZE) km pt (npages oldsz) (Nat.le_refl _) h
    (ho.of_eq (by rw [Pagetable.refs]; abel))
  rw [← PGROUNDUP_eq] at hrun
  refine ⟨km', pt', if b then newsz else 0, ?_, .inr ?_⟩
  · simp only [uvmalloc, hlt, if_false, hrun, Result.ok_bind]
  rcases hpost with ⟨hb, hmv, h', hlow, hhigh⟩ | ⟨hb, hmv, hflat, hcard⟩
  · -- the loop ends at the last page of the new size, which memory bounds
    left
    have hb' := h'.bound
    have hcount : npages oldsz + (newsz + (PGSIZE - 1) - PGROUNDUP oldsz) / PGSIZE
        = npages newsz ∧ newsz < 2 ^ 63 := by
      have hup := PGROUNDUP_eq oldsz
      have hold := npages_eq hsz
      have hnew : newsz < 2 ^ 63 := by
        simp only [TRAPFRAMEVPN, PGSIZE] at *
        omega
      rw [npages_eq hnew]
      simp only [PGSIZE] at *
      omega
    rw [hcount.1] at h' hhigh
    rw [show (newsz + (PGSIZE - 1) - PGROUNDUP oldsz) / PGSIZE
      = npages newsz - npages oldsz by rw [← hcount.1, Nat.add_sub_cancel_left]] at hmv
    exact ⟨hle, by rw [hb]; rfl, hcount.2, hmv, h', hlow, hhigh⟩
  · right
    rw [Nat.sub_self, frames_zero, add_zero] at hmv
    refine ⟨hle, by rw [hb]; rfl, hmv, ?_, hcard⟩
    rw [hflat]
    funext i
    exact if_neg (by omega)

/-! ## §4. Creating and freeing. -/

/-- **`uvmcreate`**: an empty page table. -/
theorem uvmcreate_spec (ho : km.Owns L F) : (uvmcreate km = (km, none) ∧ km.freelist = []) ∨
    ∃ km' pt, uvmcreate km = (km', some pt) ∧ Moves L km km' 0 pt.tables F
      ∧ pt.tables.card = 1 ∧ pt.flat = fun _ => Pte.zero := by
  rcases kalloc_spec ho with ⟨hk, hempty⟩ | ⟨page, km₁, hk, hmv, -⟩
  · exact .inl ⟨by simp [uvmcreate, hk], hempty⟩
  refine .inr ⟨_, Table.cleared page none, by simp [uvmcreate, hk]; rfl, ?_, ?_,
    flat_cleared page⟩
  · rw [tables_cleared]
    exact hmv.memset (by simp)
  · rw [tables_cleared]
    rfl

/-- **`uvmfree`** of a page table with no leaves but its user pages gives back
everything. -/
theorem uvmfree_spec {sz : Nat} (hmap : ∀ v, v < npages sz → (pt.flat v).mapped)
    (hrest : ∀ v, npages sz ≤ v → (pt.flat v).flags.v = false) (hmax : npages sz ≤ MAXVPN)
    (ho : km.Owns L (pt.refs (npages sz) + F)) :
    ∃ km', uvmfree L km pt sz = .ok km' ∧ Moves L km km' (pt.refs (npages sz)) 0 F := by
  by_cases hsz : sz > 0
  · obtain ⟨km₁, pt₁, hrun, hmv, -, hflat⟩ := uvmunmap_free_spec (v := 0) (by omega)
      (fun i _ hi => hmap i (by omega)) ho
    have hvac : ∀ v, (pt₁.flat v).flags.v = false := by
      intro v
      rw [hflat, clearRange]
      by_cases hv : v < npages sz
      · rw [if_pos (by omega)]; rfl
      · rw [if_neg (by omega)]; exact hrest v (by omega)
    obtain ⟨km', hfree, hmv'⟩ := freewalk_spec hvac hmv.after
    refine ⟨km', ?_, hmv.trans hmv'⟩
    rw [Nat.zero_mul] at hrun
    have hn : PGROUNDUP sz / PGSIZE = npages sz := rfl
    simp only [uvmfree, hsz, if_true, hn, hrun, Result.ok_bind]
    exact hfree
  · have h0 : sz = 0 := by omega
    subst h0
    rw [npages_zero] at *
    rw [Pagetable.refs, frames_zero, add_zero] at *
    obtain ⟨km', hfree, hmv'⟩ := freewalk_spec (fun v => hrest v (Nat.zero_le v)) ho
    refine ⟨km', ?_, hmv'⟩
    simp only [uvmfree, hsz, if_false, Result.ok_bind]
    exact hfree

/-- **`uvmclear`** takes the user bit from one page. -/
theorem uvmclear_spec (km : Kmem) {va : Nat} (h : UserMap L tf pt.flat n) (hv : va / PGSIZE < n) :
    ∃ pt', uvmclear km pt va = .ok (km, pt')
      ∧ pt'.tables = pt.tables
      ∧ pt'.flat = update pt.flat (va / PGSIZE)
          { pt.flat (va / PGSIZE) with flags := { (pt.flat (va / PGSIZE)).flags with u := false } }
      ∧ UserMap L tf pt'.flat n ∧ frames pt'.flat 0 n = frames pt.flat 0 n := by
  have hb := h.bound
  have hva : va < MAXVA := by
    simp only [TRAPFRAMEVPN, PGSIZE, MAXVA] at *
    omega
  have hfind := find_of_flat pt hva (h.valid _ hv)
  have hset := fun e => flat_setPte e hva (by rw [hfind]; rfl)
  refine ⟨_, by rw [uvmclear, walk_noalloc km pt hva, Result.ok_bind, hfind], tables_setPte _ _ _, hset _, ?_, ?_⟩
  · rw [hset]
    exact h.replace hv (h.valid _ hv) (h.readable _ hv) (h.cow _ hv) (.inl rfl)
  · obtain ⟨rest, hf, he⟩ := frames_split (f := pt.flat) hv
    rw [hset, he, hf]
    rfl

end Specs

/-! ## §5. Tables stay. -/

theorem walkLevel_below {β : Type} {fresh : Nat → β} {g : β → Multiset PageRef} {km km' : Kmem} {t t' : Table (Option β)}
    {i : Fin 512} {alloc : Bool} {x : Option β} (h : walkLevel fresh km t i alloc = (km', t', x)) :
    t'.page = t.page ∧ t.below g ≤ t'.below g ∧ ∀ b, x = some b → t'.entry i = some b := by
  unfold walkLevel at h
  split at h
  · cases h
    exact ⟨rfl, le_rfl, fun b hb => hb ▸ ‹_›⟩
  split at h
  · split at h
    · cases h
      exact ⟨rfl, le_rfl, nofun⟩
    · cases h
      rw [Table.below_set_new ‹_›]
      exact ⟨rfl, Multiset.le_add_left _ _, fun b hb => by rw [Table.set_entry_same, hb]⟩
  · cases h
    exact ⟨rfl, le_rfl, nofun⟩

/-- **`walk` removes no table.** -/
theorem walk_tables {km km' : Kmem} {pt pt' : Pagetable} {va : Nat} {alloc : Bool} {e : Option Pte}
    (h : walk km pt va alloc = .ok (km', pt', e)) : pt.tables ≤ pt'.tables := by
  unfold walk at h
  split at h
  · cases h
  split at h
  · rename_i hw
    cases h
    obtain ⟨hpage, hle, -⟩ := walkLevel_below (g := Mid.tables) hw
    rw [Pagetable.tables, Pagetable.tables, hpage]
    gcongr
  rename_i km₁ pt₁ m hw
  obtain ⟨hpage, hle, hent⟩ := walkLevel_below (g := Mid.tables) hw
  obtain ⟨rest, hbelow, hset⟩ := Table.below_split Mid.tables (hent m rfl)
  split at h
  rename_i km₂ m₂ l hw₂
  cases h
  obtain ⟨hpage₂, hle₂, -⟩ := walkLevel_below (g := Leaf.tables) hw₂
  rw [hbelow] at hle
  rw [Pagetable.tables, Pagetable.tables, Table.set_page, hpage, hset, Mid.tables, hpage₂]
  rw [Mid.tables] at hle
  refine add_le_add_right (hle.trans ?_) _
  gcongr

theorem mappagesLoop_tables {perm : Flags} (k : Nat) : ∀ {km km' : Kmem} {pt pt' : Pagetable} {a pa : Nat} {r : Int},
    mappagesLoop perm k km pt a pa = .ok (km', pt', r) → pt.tables ≤ pt'.tables := by
  induction k using Nat.strong_induction_on with
  | _ k ih =>
    intro km km' pt pt' a pa r h
    rw [mappagesLoop] at h
    obtain ⟨⟨km₁, pt₁, e⟩, hw, h⟩ := Lib.bind_ok h
    have hle := walk_tables hw
    cases e with
    | none => cases h; exact hle
    | some e =>
      rw [← tables_setPte pt₁ a (Pte.map pa perm)] at hle
      dsimp only at h
      split at h
      · cases h
      · cases k with
        | zero => cases h; exact hle
        | succ k => exact hle.trans (ih k (Nat.lt_succ_self k) h)

theorem uvmunmapLoop_tables {L : Layout} {do_free : Bool} (n : Nat) : ∀ {km km' : Kmem} {pt pt' : Pagetable} {a : Nat},
    uvmunmapLoop L do_free n km pt a = .ok (km', pt') → pt.tables ≤ pt'.tables := by
  induction n with
  | zero =>
    intro km km' pt pt' a h
    cases h
    exact le_rfl
  | succ n ih =>
    intro km km' pt pt' a h
    obtain ⟨⟨km₁, pt₁, e⟩, hw, h⟩ := Lib.bind_ok h
    cases e with
    | none => cases h
    | some e =>
      dsimp only at h
      split at h
      · cases h
      split at h
      · cases h
      obtain ⟨km₂, h⟩ : ∃ km₂, uvmunmapLoop L do_free n km₂ (pt₁.setPte a Pte.zero) (a + PGSIZE) = .ok (km', pt') := by
        split at h
        · obtain ⟨km₂, -, h⟩ := Lib.bind_ok h
          exact ⟨km₂, h⟩
        · exact ⟨km₁, h⟩
      have hrest := ih h
      rw [tables_setPte] at hrest
      exact (walk_tables hw).trans hrest

theorem uvmdealloc_tables {L : Layout} {km km' : Kmem} {pt pt' : Pagetable} {oldsz newsz r : Nat}
    (h : uvmdealloc L km pt oldsz newsz = .ok (km', pt', r)) : pt.tables ≤ pt'.tables := by
  unfold uvmdealloc uvmunmap at h
  split at h
  · cases h
    exact le_rfl
  split at h
  · obtain ⟨⟨km₁, pt₁⟩, hrun, h⟩ := Lib.bind_ok h
    cases h
    split at hrun
    · cases hrun
    · exact uvmunmapLoop_tables _ hrun
  · cases h
    exact le_rfl

theorem uvmallocLoop_tables {L : Layout} {xperm : Flags} {oldsz : Nat} (k : Nat) :
    ∀ {km km' : Kmem} {pt pt' : Pagetable} {a : Nat} {b : Bool},
      uvmallocLoop L xperm oldsz k km pt a = .ok (km', pt', b) → pt.tables ≤ pt'.tables := by
  induction k with
  | zero =>
    intro km km' pt pt' a b h
    cases h
    exact le_rfl
  | succ k ih =>
    intro km km' pt pt' a b h
    rw [uvmallocLoop] at h
    split at h
    · obtain ⟨⟨km₁, pt₁, r⟩, hrun, h⟩ := Lib.bind_ok h
      cases h
      exact uvmdealloc_tables hrun
    obtain ⟨⟨km₁, pt₁, r⟩, hmap, h⟩ := Lib.bind_ok h
    have hle : pt.tables ≤ pt₁.tables := by
      unfold mappages at hmap
      split at hmap
      · cases hmap
      · exact mappagesLoop_tables _ hmap
    dsimp only at h
    split at h
    · obtain ⟨km₂, -, h⟩ := Lib.bind_ok h
      obtain ⟨⟨km₃, pt₃, r₃⟩, hrun, h⟩ := Lib.bind_ok h
      cases h
      exact hle.trans (uvmdealloc_tables hrun)
    · exact hle.trans (ih h)

/-- The rest of an address space does not depend on its size. -/
theorem UserMap.agree {L : Layout} {tf n m v : Nat} {f g : Nat → Pte} (h : UserMap L tf f n) (h' : UserMap L tf g m)
    (hn : n ≤ v) (hm : m ≤ v) : g v = f v := by
  by_cases htf : v = TRAPFRAMEVPN
  · rw [htf, h.trapf, h'.trapf]
  · by_cases htr : v = TRAMPOLINEVPN
    · rw [htr, h.tramp, h'.tramp]
    · rw [h.rest v hn htf htr, h'.rest v hm htf htr]

end Xv6
