/-
  Xv6.Mem.HeapTable — page tables in physical memory (`walk`, `mappages` and
  `uvmunmap` of `kernel/vm.c`, the PTE macros of `kernel/riscv.h`).

  The other modules take a page table as a tree.  Here it is what it is in the
  machine: pages of 512 words, found through words, one pointer being the
  address of a page packed with flags.  The tables are a radix tree of depth
  two, and the words at its leaves are a FLAT MAP from page numbers to frames
  and flags.

  Main results:
    * `walk_spec`       — `walk(.., 1)` adds tables and keeps the flat map,
    * `mappages_maps`   — `mappages` maps a prefix of its range,
    * `uvmunmap_clears` — `uvmunmap` clears its range,
    * `refines_flat`    — every run of calls, on the flat map,
    * `frees_own_table` — a call that frees a page of the table itself,
    * `tree_refines`    — the calls on trees do the same to the flat map.
-/
import Xv6.Mem.Walk
import Xv6.Lib.Words
import Xv6.Lib.Radix
import Xv6.Lib.Runs

namespace Xv6.Heap

open Function (update update_of_ne update_self)
open Lib.Radix (node Tree)

/-! ## §1. The functions. -/

/-- valid -/
def PTE_V : UInt64 := 1
/-- readable -/
def PTE_R : UInt64 := 2
/-- writable -/
def PTE_W : UInt64 := 4

/-- `PA2PTE(pa)` -/
def PA2PTE (pa : UInt64) : UInt64 := (pa >>> 12) <<< 10

/-- `PTE2PA(pte)` -/
def PTE2PA (pte : UInt64) : UInt64 := (pte >>> 10) <<< 12

/-- `PTE_FLAGS(pte)` -/
def PTE_FLAGS (pte : UInt64) : UInt64 := pte &&& 0x3FF

/-- The words of a page, lowest byte first: `pagetable[i]`. -/
def words (km : Kmem) (page : Nat) (i : Fin 512) : UInt64 :=
  .ofNat ((List.range 8).foldr (fun j n => (km.mem page (8 * i + j)).toNat + 256 * n) 0)

/-- `pagetable[i] = w` -/
def store (km : Kmem) (page : Nat) (i : Fin 512) (w : UInt64) : Kmem :=
  { km with mem := update km.mem page (Lib.setWords (km.mem page) (· == i.val) fun _ => w) }

/-- One turn of the loop of `walk`. -/
def walkLevel (km : Kmem) (pagetable : Nat) (i : Fin 512) (alloc : Bool) : Kmem × Option Nat :=
  let pte := words km pagetable i
  if pte &&& PTE_V ≠ 0 then (km, some (PTE2PA pte).toNat)
  else if alloc then
    match kalloc km with
    | (km, none) => (km, none)
    | (km, some page) => (store (km.memset page 0) pagetable i (PA2PTE (.ofNat page) ||| PTE_V), some page)
  else (km, none)

/-- The loop of `walk` over the indices of its levels. -/
def walkPath (alloc : Bool) (is : List (Fin 512)) (km : Kmem) (pagetable : Nat) : Kmem × Option Nat :=
  Lib.Radix.descend (fun km page i => walkLevel km page i alloc) is km pagetable

/-- `walk(pagetable, va, alloc)`: the address of the PTE is a page and an index. -/
def walk (km : Kmem) (pagetable va : Nat) (alloc : Bool) : Result (Kmem × Option (Nat × Fin 512)) :=
  if va ≥ MAXVA then .error (.panic "walk")
  else
    match walkPath alloc [PX 2 va, PX 1 va] km pagetable with
    | (km, none) => .ok (km, none)
    | (km, some page) => .ok (km, some (page, PX 0 va))

/-- The loop of `mappages`, `k` pages still to map after this one. -/
def mappagesLoop (pagetable : Nat) (perm : UInt64) : Nat → Kmem → Nat → UInt64 → Result (Kmem × Int)
  | k, km, a, pa => do
      let (km, pte) ← walk km pagetable a true
      match pte with
      | none => .ok (km, -1)
      | some (page, i) =>
        if words km page i &&& PTE_V ≠ 0 then .error (.panic "mappages: remap")
        else
          let km := store km page i (PA2PTE pa ||| perm ||| PTE_V)
          match k with
          | 0 => .ok (km, 0)
          | k + 1 => mappagesLoop pagetable perm k km (a + PGSIZE) (pa + .ofNat PGSIZE)

/-- `mappages(pagetable, va, size, pa, perm)` -/
def mappages (km : Kmem) (pagetable va size : Nat) (pa perm : UInt64) : Result (Kmem × Int) :=
  if size = 0 then .error (.panic "mappages: size")
  else
    let a := PGROUNDDOWN va
    let last := PGROUNDDOWN (u64 (va + size - 1))
    mappagesLoop pagetable perm (u64 (last + 2 ^ 64 - a) / PGSIZE) km a pa

/-- The loop of `uvmunmap`, `n` pages from `a` on. -/
def uvmunmapLoop (L : Layout) (pagetable : Nat) (do_free : Bool) : Nat → Kmem → Nat → Result Kmem
  | 0, km, _ => .ok km
  | n + 1, km, a => do
      let (km, pte) ← walk km pagetable a false
      match pte with
      | none => .error (.panic "uvmunmap: walk")
      | some (page, i) =>
        let pte := words km page i
        if pte &&& PTE_V = 0 then .error (.panic "uvmunmap: not mapped")
        else if PTE_FLAGS pte = PTE_V then .error (.panic "uvmunmap: not a leaf")
        else do
          let km ← if do_free then kfree L km (PTE2PA pte).toNat else .ok km
          uvmunmapLoop L pagetable do_free n (store km page i 0) (a + PGSIZE)

/-- `uvmunmap(pagetable, va, npages, do_free)` -/
def uvmunmap (L : Layout) (km : Kmem) (pagetable va npages : Nat) (do_free : Bool) : Result Kmem :=
  if va % PGSIZE ≠ 0 then .error (.panic "uvmunmap: not aligned")
  else
    let last := u64 (va + npages * PGSIZE)
    uvmunmapLoop L pagetable do_free ((last - va) / PGSIZE) km va

/-- `walk(pagetable, va, 0)` and then reading the entry: the frame and the flags, if it is valid. -/
def lookup (km : Kmem) (pagetable va : Nat) : Option (UInt64 × UInt64) :=
  match walk km pagetable va false with
  | .ok (km, some (page, i)) =>
    let pte := words km page i
    if pte &&& PTE_V ≠ 0 then some (PTE2PA pte, PTE_FLAGS pte) else none
  | _ => none

/-! ## §2. The words of a PTE. -/

/-- The page a word points to, if it is valid. -/
def ptr (w : UInt64) : Option Nat := if w &&& PTE_V ≠ 0 then some (PTE2PA w).toNat else none

/-- The frame and the flags of a word, if it is valid. -/
def entry (w : UInt64) : Option (UInt64 × UInt64) :=
  if w &&& PTE_V ≠ 0 then some (PTE2PA w, PTE_FLAGS w) else none

/-- The first address of the frame of `pa`. -/
def frame (pa : UInt64) : UInt64 := (pa >>> 12) <<< 12

section Words

-- shifts and masks are division and remainder of the numbers

theorem PA2PTE_toNat (pa : UInt64) : (PA2PTE pa).toNat = pa.toNat / 4096 * 1024 := by
  have hlt := pa.toNat_lt
  simp [PA2PTE, UInt64.toNat_shiftLeft, UInt64.toNat_shiftRight, Nat.shiftRight_eq_div_pow, Nat.shiftLeft_eq]
  omega

theorem PTE2PA_toNat (w : UInt64) : (PTE2PA w).toNat = w.toNat / 1024 * 4096 % 2 ^ 64 := by
  simp [PTE2PA, UInt64.toNat_shiftLeft, UInt64.toNat_shiftRight, Nat.shiftRight_eq_div_pow, Nat.shiftLeft_eq]

theorem frame_toNat (pa : UInt64) : (frame pa).toNat = pa.toNat / 4096 * 4096 := by
  have hlt := pa.toNat_lt
  simp [frame, UInt64.toNat_shiftLeft, UInt64.toNat_shiftRight, Nat.shiftRight_eq_div_pow, Nat.shiftLeft_eq]
  omega

theorem PTE_FLAGS_toNat (w : UInt64) : (PTE_FLAGS w).toNat = w.toNat % 1024 := by
  exact Nat.and_two_pow_sub_one_eq_mod w.toNat 10

theorem valid_iff (w : UInt64) : w &&& PTE_V ≠ 0 ↔ w.toNat % 2 = 1 := by
  have hand : (w &&& PTE_V).toNat = w.toNat % 2 := by
    exact Nat.and_two_pow_sub_one_eq_mod w.toNat 1
  rw [ne_eq, ← UInt64.toNat_inj, hand]
  show ¬ w.toNat % 2 = 0 ↔ _
  omega

variable {perm : UInt64}

/-- A PTE is its frame number and, below it, its flags. -/
theorem pte_toNat (pa : UInt64) (h : PTE_FLAGS perm = perm) :
    (PA2PTE pa ||| perm ||| PTE_V).toNat = pa.toNat / 4096 * 1024 + (perm ||| PTE_V).toNat
      ∧ (perm ||| PTE_V).toNat < 1024 := by
  have hperm : perm.toNat < 2 ^ 10 := by
    rw [← h, PTE_FLAGS_toNat]
    omega
  have hlt : (perm ||| PTE_V).toNat < 2 ^ 10 := by
    exact Nat.or_lt_two_pow hperm (by decide)
  refine ⟨?_, hlt⟩
  rw [UInt64.or_assoc, UInt64.toNat_or, PA2PTE_toNat]
  have hor := Nat.shiftLeft_add_eq_or_of_lt hlt (pa.toNat / 4096)
  rw [Nat.shiftLeft_eq] at hor
  exact hor.symm

theorem valid_or (w : UInt64) : (w ||| PTE_V) &&& PTE_V ≠ 0 := by
  rw [valid_iff, UInt64.toNat_or]
  exact Nat.or_mod_two_eq_one.mpr (.inr rfl)

/-- **What `mappages` stores is what a lookup reads.** -/
theorem entry_map (pa : UInt64) (h : PTE_FLAGS perm = perm) :
    entry (PA2PTE pa ||| perm ||| PTE_V) = some (frame pa, perm ||| PTE_V) := by
  obtain ⟨hval, hlt⟩ := pte_toNat pa h
  have hpa := pa.toNat_lt
  have hframe : PTE2PA (PA2PTE pa ||| perm ||| PTE_V) = frame pa := by
    apply UInt64.toNat_inj.mp
    rw [PTE2PA_toNat, frame_toNat, hval]
    omega
  have hflags : PTE_FLAGS (PA2PTE pa ||| perm ||| PTE_V) = perm ||| PTE_V := by
    apply UInt64.toNat_inj.mp
    rw [PTE_FLAGS_toNat, hval]
    omega
  rw [entry, if_pos (valid_or _), hframe, hflags]

/-- What `walk` stores for a new table points to it. -/
theorem ptr_table {page : Nat} (halign : page % PGSIZE = 0) (hlt : page < PHYSTOP) :
    ptr (PA2PTE (.ofNat page) ||| PTE_V) = some page := by
  obtain ⟨hval, hone⟩ := pte_toNat (.ofNat page) (show PTE_FLAGS 0 = 0 from rfl)
  rw [UInt64.or_zero] at hval
  have hpage : (UInt64.ofNat page).toNat = page := by
    rw [UInt64.toNat_ofNat']
    simp only [PHYSTOP] at hlt
    omega
  rw [ptr, if_pos (valid_or _), PTE2PA_toNat, hval, hpage]
  simp only [PGSIZE, PHYSTOP] at halign hlt
  congr 1
  omega

theorem ptr_zero : ptr 0 = none := rfl

theorem entry_zero : entry 0 = none := rfl

end Words

/-! ## §3. The tables. -/

/-- The indices of `walk` above the last level. -/
def path (v : Nat) : List (Fin 512) := [PX 2 (v * PGSIZE), PX 1 (v * PGSIZE)]

/-- The index at the last level. -/
def slot (v : Nat) : Fin 512 := PX 0 (v * PGSIZE)

/-- Page `v` in the flat map. -/
def flat (km : Kmem) (root v : Nat) : Option (UInt64 × UInt64) := lookup km root (v * PGSIZE)

/-- **Page tables**: the tables form a tree, they are allocated, and the free list has pages of the allocator only. -/
structure Tables (L : Layout) (root : Nat) (km : Kmem) : Prop where
  tree : Tree ptr (words km) root 2
  held : ∀ q a, q.length ≤ 2 → node ptr (words km) root q = some a →
    a % PGSIZE = 0 ∧ 0 < km.num_ref_to_page (a / PGSIZE)
  free : ∀ r ∈ km.freelist, L.inRange r = true

section Tables

variable {L : Layout} {root : Nat} {km km' : Kmem} {v u page : Nat}

theorem path_length (v : Nat) : (path v).length = 2 := rfl

theorem page_eq (hv : v < MAXVPN) (hu : u < MAXVPN) (hpath : path u = path v) (hslot : slot u = slot v) : u = v := by
  simp only [path, List.cons.injEq, and_true] at hpath
  have hn : MAXVPN ≤ NVPN := by
    simp only [MAXVPN, NVPN]
    omega
  exact PX_inj (by omega) (by omega) hpath.1 hpath.2 hslot

theorem walkLevel_valid {i : Fin 512} (hv : words km page i &&& PTE_V ≠ 0) (alloc : Bool) :
    walkLevel km page i alloc = (km, ptr (words km page i)) := by
  unfold walkLevel ptr
  rw [if_pos hv, if_pos hv]

/-- `walk` without allocation follows the words. -/
theorem walkLevel_false (i : Fin 512) : walkLevel km page i false = (km, ptr (words km page i)) := by
  by_cases hv : words km page i &&& PTE_V ≠ 0
  · exact walkLevel_valid hv false
  · unfold walkLevel ptr
    rw [if_neg hv, if_neg hv, if_neg Bool.false_ne_true]

theorem walkPath_false (is : List (Fin 512)) : walkPath false is km page = (km, node ptr (words km) page is) :=
  Lib.Radix.descend_pure (fun _ i => walkLevel_false i) is page

variable {va : Nat}

/-- The address of a PTE: a page and an index, if the tables lead to one. -/
theorem walk_false (hva : va < MAXVA) :
    walk km root va false = .ok (km, (node ptr (words km) root [PX 2 va, PX 1 va]).map (·, PX 0 va)) := by
  rw [walk, if_neg (by omega), walkPath_false]
  cases node ptr (words km) root [PX 2 va, PX 1 va] <;> rfl

/-- **A lookup reads the radix tree.** -/
theorem lookup_eq (hva : va < MAXVA) :
    lookup km root va = Lib.Radix.read ptr entry (words km) root [PX 2 va, PX 1 va] (PX 0 va) := by
  rw [lookup, walk_false hva, Lib.Radix.read]
  cases node ptr (words km) root [PX 2 va, PX 1 va] <;> rfl

/-- The offset in the page plays no part. -/
theorem lookup_page (hva : va < MAXVA) : lookup km root va = flat km root (va / PGSIZE) := by
  have hle : va / PGSIZE * PGSIZE ≤ va := Nat.div_mul_le_self va PGSIZE
  rw [flat, lookup_eq hva, lookup_eq (by omega), PX_page, PX_page, PX_page]

theorem flat_eq (hv : v < MAXVPN) : flat km root v = Lib.Radix.read ptr entry (words km) root (path v) (slot v) := lookup_eq (va_lt hv)

theorem flat_none (hv : ¬ v < MAXVPN) : flat km root v = none := by
  have hva : v * PGSIZE ≥ MAXVA := by
    simp only [MAXVPN, PGSIZE, MAXVA] at hv ⊢
    omega
  rw [flat, lookup, walk, if_pos hva]

/-- Two heaps with the same values have the same flat map. -/
theorem flat_ext (h : ∀ v < MAXVPN, Lib.Radix.read ptr entry (words km') root (path v) (slot v)
      = Lib.Radix.read ptr entry (words km) root (path v) (slot v)) : flat km' root = flat km root := by
  funext v
  by_cases hv : v < MAXVPN
  · rw [flat_eq hv, flat_eq hv, h v hv]
  · rw [flat_none hv, flat_none hv]

theorem words_eq (km : Kmem) (page : Nat) (i : Fin 512) : words km page i = Lib.word (km.mem page) i := by
  have hrange : List.range 8 = [0, 1, 2, 3, 4, 5, 6, 7] := rfl
  rw [words, Lib.word, hrange]
  simp only [List.foldr_cons, List.foldr_nil, Nat.add_zero]
  congr 1
  omega

variable {a : Nat}

theorem words_congr {b : Nat} (h : km'.mem a = km.mem b) (i : Fin 512) : words km' a i = words km b i := by
  rw [words, h, words]

theorem store_self (km : Kmem) (page : Nat) (i : Fin 512) (w : UInt64) :
    (store km page i w).mem page = Lib.setWords (km.mem page) (· == i.val) fun _ => w := update_self ..

theorem words_store (km : Kmem) (page : Nat) (i : Fin 512) (w : UInt64) :
    words (store km page i w) = Lib.Radix.set (words km) page i w := by
  funext b j
  by_cases hb : b = page
  · subst hb
    rw [words_eq, store_self, Lib.word_setWords, ← words_eq]
    by_cases hj : j = i
    · rw [hj, Lib.Radix.set_same, beq_self_eq_true, if_pos rfl]
    · rw [Lib.Radix.set_ne _ w (.inr hj), if_neg]
      simpa using fun heq => hj (Fin.ext heq)
  · rw [Lib.Radix.set_ne _ w (.inl hb)]
    exact words_congr (update_of_ne hb ..) j

/-- A cleared page has zero words. -/
theorem words_zero {km : Kmem} {page : Nat} (h : ∀ j, km.mem page j = 0) (i : Fin 512) : words km page i = 0 := by
  have hsum : (List.range 8).foldr (fun _ n => (0 : UInt8).toNat + 256 * n) 0 = 0 := by decide
  simp only [words, h, hsum]
  rfl

theorem words_memset (km : Kmem) (page : Nat) : words (km.memset page 0) = update (words km) page fun _ => 0 := by
  funext b j
  by_cases hb : b = page
  · subst hb
    rw [update_self]
    have hzero : (km.memset b 0).mem b = fun _ => 0 := update_self ..
    exact words_zero (fun i => by rw [hzero]) j
  · rw [update_of_ne hb]
    exact words_congr (update_of_ne hb ..) j

/-- What does not touch the tables keeps them, and the flat map. -/
theorem Tables.frame (h : Tables L root km)
    (hmem : ∀ q a, q.length ≤ 2 → node ptr (words km) root q = some a → km'.mem a = km.mem a
      ∧ km'.num_ref_to_page (a / PGSIZE) = km.num_ref_to_page (a / PGSIZE))
    (hfree : ∀ r ∈ km'.freelist, L.inRange r = true) : Tables L root km' ∧ flat km' root = flat km root
      ∧ ∀ q, q.length ≤ 2 → node ptr (words km') root q = node ptr (words km) root q := by
  have hsame : ∀ q a i, q.length ≤ 2 → node ptr (words km) root q = some a → words km' a i = words km a i := by
    intro q a i hq ha
    exact words_congr (hmem q a hq ha).1 i
  have hnode : ∀ q, q.length ≤ 2 → node ptr (words km') root q = node ptr (words km) root q := by
    intro q hq
    apply Lib.Radix.node_congr
    intro p a i hp ha
    rw [hsame p a i (by omega) ha]
  refine ⟨⟨h.tree.of_node hnode, ?_, hfree⟩, ?_, hnode⟩
  · intro q a hq ha
    rw [hnode q hq] at ha
    rw [(hmem q a hq ha).2]
    exact h.held q a hq ha
  · apply flat_ext
    intro v hv
    exact Lib.Radix.read_congr hsame (Nat.le_of_eq (path_length v)) (slot v)

/-- **Storing a PTE** changes the flat map at one page and moves no table. -/
theorem Tables.store (h : Tables L root km) (hv : v < MAXVPN) (hp : node ptr (words km) root (path v) = some page)
    (w : UInt64) : Tables L root (store km page (slot v) w)
      ∧ flat (store km page (slot v) w) root = update (flat km root) v (entry w)
      ∧ ∀ q, q.length ≤ 2 → node ptr (words (store km page (slot v) w)) root q = node ptr (words km) root q := by
  have hnode : ∀ q, q.length ≤ 2 →
      node ptr (words (Heap.store km page (slot v) w)) root q = node ptr (words km) root q := by
    intro q hq
    rw [words_store]
    exact Lib.Radix.node_store h.tree hp (path_length v) _ _ hq
  refine ⟨⟨h.tree.of_node hnode, ?_, h.free⟩, ?_, hnode⟩
  · intro q a hq ha
    rw [hnode q hq] at ha
    exact h.held q a hq ha
  funext u
  by_cases hu : u < MAXVPN
  · rw [flat_eq hu, words_store, Lib.Radix.read_store h.tree hp (path_length v) _ _ (path_length u)]
    by_cases huv : u = v
    · rw [huv, update_self, if_pos ⟨rfl, rfl⟩]
    · rw [update_of_ne huv, flat_eq hu, if_neg fun hc => huv (page_eq hv hu hc.1 hc.2)]
  · rw [update_of_ne (by omega), flat_none hu, flat_none hu]

/-- What `walk(.., 1)` leaves: more tables, the same flat map. -/
structure Grown (L : Layout) (root : Nat) (km km' : Kmem) : Prop where
  tables : Tables L root km'
  nodes : ∀ q a, q.length ≤ 2 → node ptr (words km) root q = some a → node ptr (words km') root q = some a
  same : flat km' root = flat km root

theorem Grown.refl (h : Tables L root km) : Grown L root km km := ⟨h, fun _ _ _ ha => ha, rfl⟩

theorem Grown.trans {km₁ km₂ : Kmem} (h₁ : Grown L root km km₁) (h₂ : Grown L root km₁ km₂) : Grown L root km km₂ :=
  ⟨h₂.tables, fun q a hq ha => h₂.nodes q a hq (h₁.nodes q a hq ha), h₂.same.trans h₁.same⟩

variable {p : List (Fin 512)}

/-- **A new table**: the page comes from the allocator, so it is none of the tables. -/
theorem Tables.grow {b : Nat} {i : Fin 512} (h : Tables L root km)
    (hp : node ptr (words km) root p = some a) (hlen : p.length < 2) (hempty : ptr (words km a i) = none)
    (hk : kalloc km = (km', some b)) : Grown L root km (Heap.store (km'.memset b 0) a i (PA2PTE (.ofNat b) ||| PTE_V))
      ∧ node ptr (words (Heap.store (km'.memset b 0) a i (PA2PTE (.ofNat b) ||| PTE_V))) root (p ++ [i]) = some b := by
  obtain ⟨hmem, hsub, hzero, hcount, hframe⟩ := kalloc_some hk
  have hin := h.free b hmem
  have halign := inRange_aligned hin
  have hptr : ptr (PA2PTE (.ofNat b) ||| PTE_V) = some b := by
    apply ptr_table halign
    simp only [Layout.inRange, decide_eq_true_eq] at hin
    omega
  -- a table has a reference, the page had none
  have hfresh : ∀ q, q.length ≤ 2 → node ptr (words km) root q ≠ some b := by
    intro q hq hb
    have hpos := (h.held q b hq hb).2
    omega
  have hwords : words (Heap.store (km'.memset b 0) a i (PA2PTE (.ofNat b) ||| PTE_V))
      = Lib.Radix.install (words km) 0 a i b (PA2PTE (.ofNat b) ||| PTE_V) := by
    have hrest : update (words km') b (fun _ => 0) = update (words km) b fun _ => 0 := by
      funext c
      by_cases hc : c = b
      · rw [hc, update_self, update_self]
      · rw [update_of_ne hc, update_of_ne hc]
        exact funext (words_congr (hframe c hc))
    rw [words_store, words_memset, Lib.Radix.install, hrest]
  have hnode := Lib.Radix.node_install hp hlen h.tree hempty hptr ptr_zero hfresh
  refine ⟨⟨⟨?_, ?_, ?_⟩, ?_, ?_⟩, ?_⟩
  · rw [hwords]
    exact h.tree.install hp hlen hempty hptr ptr_zero hfresh
  · intro q c hq hc
    show c % PGSIZE = 0 ∧ 0 < km'.num_ref_to_page (c / PGSIZE)
    rw [hwords, hnode q hq] at hc
    rw [hcount]
    split at hc
    · cases hc
      rw [update_self]
      exact ⟨halign, by decide⟩
    obtain ⟨hca, hcpos⟩ := h.held q c hq hc
    rw [update_of_ne]
    · exact ⟨hca, hcpos⟩
    · intro heq
      rw [heq] at hcpos
      omega
  · exact fun r hr => h.free r (hsub hr)
  · intro q c hq hc
    rw [hwords, hnode q hq, if_neg]
    · exact hc
    · intro heq
      rw [heq, Lib.Radix.node_step hp, hempty] at hc
      cases hc
  · apply flat_ext
    intro v hv
    rw [hwords]
    exact Lib.Radix.read_install hp hlen h.tree hempty hptr ptr_zero entry_zero hfresh (path_length v) (slot v)
  · rw [hwords, hnode _ (by rw [List.length_append, List.length_singleton]; omega), if_pos rfl]

/-- One level of `walk(.., 1)`. -/
theorem walkLevel_grows {r : Option Nat} (h : Tables L root km)
    (hp : node ptr (words km) root p = some a) (hlen : p.length < 2) (i : Fin 512)
    (hrun : walkLevel km a i true = (km', r)) :
    Grown L root km km' ∧ ∀ b, r = some b → node ptr (words km') root (p ++ [i]) = some b := by
  by_cases hv : words km a i &&& PTE_V ≠ 0
  · rw [walkLevel_valid hv] at hrun
    cases hrun
    refine ⟨Grown.refl h, fun b hb => ?_⟩
    rw [Lib.Radix.node_step hp]
    exact hb
  unfold walkLevel at hrun
  rw [if_neg hv, if_pos rfl] at hrun
  have hempty : ptr (words km a i) = none := if_neg hv
  match hk : kalloc km with
  | (km₁, none) =>
    rw [hk] at hrun
    cases hrun
    have hsame := kalloc_none (congrArg Prod.snd hk)
    rw [hk] at hsame
    cases hsame
    exact ⟨Grown.refl h, fun b hb => nomatch hb⟩
  | (km₁, some c) =>
    rw [hk] at hrun
    cases hrun
    obtain ⟨hgrown, hnode⟩ := h.grow hp hlen hempty hk
    refine ⟨hgrown, fun b hb => ?_⟩
    cases hb
    exact hnode

/-- The levels one after the other. -/
theorem walkPath_grows {is : List (Fin 512)} {r : Option Nat} (h : Tables L root km) (hlen : is.length ≤ 2)
    (hrun : walkPath true is km root = (km', r)) :
    Grown L root km km' ∧ ∀ b, r = some b → node ptr (words km') root is = some b := by
  have hstep : ∀ s p a i s' r, Grown L root s s → node ptr (words s) root p = some a → p.length < 2 →
      walkLevel s a i true = (s', r) → Grown L root s s' ∧ Grown L root s' s'
        ∧ ∀ b, r = some b → node ptr (words s') root (p ++ [i]) = some b := by
    intro s p a i s' r hs hp hlen hw
    obtain ⟨hgrown, hnode⟩ := walkLevel_grows hs.tables hp hlen i hw
    exact ⟨hgrown, Grown.refl hgrown.tables, hnode⟩
  exact Lib.Radix.descend_rel (R := Grown L root) (P := fun s p a => node ptr (words s) root p = some a) (d := 2)
    (fun _ _ _ => Grown.trans) hstep is km [] root km' r (Grown.refl h) Lib.Radix.node_nil
    (by rwa [List.length_nil, Nat.zero_add]) hrun

/-- **`walk(.., 1)`** leads to the PTE or runs out of memory. -/
theorem walk_spec (h : Tables L root km) (hv : v < MAXVPN) :
    ∃ km', Grown L root km km' ∧ (walk km root (v * PGSIZE) true = .ok (km', none)
      ∨ ∃ page, walk km root (v * PGSIZE) true = .ok (km', some (page, slot v))
          ∧ node ptr (words km') root (path v) = some page) := by
  have hva : ¬ v * PGSIZE ≥ MAXVA := by
    have := va_lt hv
    omega
  rw [walk, if_neg hva]
  match hw : walkPath true [PX 2 (v * PGSIZE), PX 1 (v * PGSIZE)] km root with
  | (km', r) =>
    obtain ⟨hgrown, hnode⟩ := walkPath_grows h (Nat.le_of_eq (path_length v)) hw
    refine ⟨km', hgrown, ?_⟩
    cases r with
    | none => exact .inl rfl
    | some page => exact .inr ⟨page, rfl, hnode page rfl⟩

end Tables

/-! ## §4. The calls on the flat map. -/

/-- A partial map from page numbers to frames and flags. -/
abbrev FlatMap := Nat → Option (UInt64 × UInt64)

/-- The `n` pages from `v` on map to the frames from `pa` on. -/
def FlatMap.map (m : FlatMap) (v n : Nat) (pa perm : UInt64) : FlatMap := fun u =>
  if v ≤ u ∧ u < v + n then some (frame (pa + .ofNat ((u - v) * PGSIZE)), perm ||| PTE_V) else m u

/-- The `n` pages from `v` on map to nothing. -/
def FlatMap.unmap (m : FlatMap) (v n : Nat) : FlatMap := fun u => if v ≤ u ∧ u < v + n then none else m u

section Calls

variable {L : Layout} {root : Nat} {km km' : Kmem} {m : FlatMap} {v u n page : Nat} {pa perm : UInt64}

theorem FlatMap.map_none (m : FlatMap) (v : Nat) (pa perm : UInt64) : m.map v 0 pa perm = m := by
  funext u
  exact if_neg (by omega)

theorem FlatMap.map_cons (m : FlatMap) (v n : Nat) (pa perm : UInt64) :
    FlatMap.map (update m v (some (frame pa, perm ||| PTE_V))) (v + 1) n (pa + .ofNat PGSIZE) perm
      = m.map v (n + 1) pa perm := by
  funext u
  unfold FlatMap.map
  by_cases huv : u = v
  · have hzero : pa + UInt64.ofNat ((u - v) * PGSIZE) = pa := by
      rw [huv, Nat.sub_self, Nat.zero_mul]
      exact UInt64.add_zero pa
    rw [if_neg (by omega), if_pos (by omega), hzero, huv, update_self]
  rw [update_of_ne huv]
  by_cases hin : v + 1 ≤ u ∧ u < v + 1 + n
  · have hoff : (u - v) * PGSIZE = PGSIZE + (u - (v + 1)) * PGSIZE := by
      rw [show u - v = 1 + (u - (v + 1)) by omega, Nat.add_mul, Nat.one_mul]
    rw [if_pos hin, if_pos (by omega), hoff, UInt64.ofNat_add, UInt64.add_assoc]
  · rw [if_neg hin, if_neg (by omega)]

theorem FlatMap.unmap_none (m : FlatMap) (v : Nat) : m.unmap v 0 = m := by
  funext u
  exact if_neg (by omega)

theorem FlatMap.unmap_cons (m : FlatMap) (v n : Nat) : FlatMap.unmap (update m v none) (v + 1) n = m.unmap v (n + 1) := by
  funext u
  unfold FlatMap.unmap
  by_cases huv : u = v
  · rw [if_neg (by omega), if_pos (by omega), huv, update_self]
  · rw [update_of_ne huv]
    by_cases hin : v + 1 ≤ u ∧ u < v + 1 + n
    · rw [if_pos hin, if_pos (by omega)]
    · rw [if_neg hin, if_neg (by omega)]

/-- The word at the PTE of a page is its entry in the flat map. -/
theorem flat_word (hv : v < MAXVPN) (hp : node ptr (words km) root (path v) = some page) :
    flat km root v = entry (words km page (slot v)) := by
  rw [flat_eq hv, Lib.Radix.read, hp]
  rfl

theorem page_succ (v : Nat) : v * PGSIZE + PGSIZE = (v + 1) * PGSIZE := (Nat.succ_mul v PGSIZE).symm

/-- One turn of the loop of `mappages`: the page is mapped already, or memory runs out, or the page is mapped. -/
theorem mappagesLoop_turn (hperm : PTE_FLAGS perm = perm) (h : Tables L root km) (hv : v < MAXVPN) (pa : UInt64)
    (k : Nat) :
    (flat km root v ≠ none ∧ mappagesLoop root perm k km (v * PGSIZE) pa = .error (.panic "mappages: remap"))
      ∨ (∃ km', Grown L root km km' ∧ mappagesLoop root perm k km (v * PGSIZE) pa = .ok (km', -1))
      ∨ ∃ km', Tables L root km'
          ∧ flat km' root = update (flat km root) v (some (frame pa, perm ||| PTE_V))
          ∧ mappagesLoop root perm k km (v * PGSIZE) pa = match k with
            | 0 => .ok (km', 0)
            | k + 1 => mappagesLoop root perm k km' (v * PGSIZE + PGSIZE) (pa + .ofNat PGSIZE) := by
  rw [mappagesLoop]
  obtain ⟨km₁, hgrown, hwalk | ⟨page, hwalk, hp⟩⟩ := walk_spec h hv
  · rw [hwalk]
    exact .inr (.inl ⟨km₁, hgrown, rfl⟩)
  rw [hwalk]
  simp only [Result.ok_bind]
  have hword := flat_word hv hp
  rw [hgrown.same] at hword
  by_cases hvalid : words km₁ page (slot v) &&& PTE_V ≠ 0
  · rw [if_pos hvalid]
    refine .inl ⟨?_, rfl⟩
    rw [hword, entry, if_pos hvalid]
    exact Option.some_ne_none _
  · rw [if_neg hvalid]
    obtain ⟨htables, hflat, -⟩ := hgrown.tables.store hv hp (PA2PTE pa ||| perm ||| PTE_V)
    rw [entry_map pa hperm, hgrown.same] at hflat
    exact .inr (.inr ⟨_, htables, hflat, rfl⟩)

/-- **The loop of `mappages`** maps a prefix of its pages, all of them when it returns 0, and panics only at a page that
is mapped already. -/
theorem mappagesLoop_spec (hperm : PTE_FLAGS perm = perm) (k : Nat) :
    ∀ {km : Kmem} {v : Nat} (pa : UInt64), Tables L root km → v + k < MAXVPN →
      (mappagesLoop root perm k km (v * PGSIZE) pa = .error (.panic "mappages: remap")
        ∧ ∃ u, v ≤ u ∧ u ≤ v + k ∧ flat km root u ≠ none)
      ∨ ∃ km' r j, mappagesLoop root perm k km (v * PGSIZE) pa = .ok (km', r) ∧ Tables L root km'
          ∧ flat km' root = FlatMap.map (flat km root) v j pa perm ∧ (r = 0 ∧ j = k + 1 ∨ r = -1 ∧ j ≤ k) := by
  induction k with
  | zero =>
    intro km v pa h hv
    obtain ⟨hmapped, hrun⟩ | ⟨km', hgrown, hrun⟩ | ⟨km', htables, hflat, hrun⟩ :=
      mappagesLoop_turn hperm h (show v < MAXVPN by omega) pa 0
    · exact .inl ⟨hrun, v, Nat.le_refl v, Nat.le_refl v, hmapped⟩
    · refine .inr ⟨km', -1, 0, hrun, hgrown.tables, ?_, .inr ⟨rfl, Nat.le_refl 0⟩⟩
      rw [hgrown.same, FlatMap.map_none]
    · refine .inr ⟨km', 0, 1, hrun, htables, ?_, .inl ⟨rfl, rfl⟩⟩
      rw [hflat, ← FlatMap.map_cons, FlatMap.map_none]
  | succ k ih =>
    intro km v pa h hv
    obtain ⟨hmapped, hrun⟩ | ⟨km', hgrown, hrun⟩ | ⟨km₁, htables, hflat, hrun⟩ :=
      mappagesLoop_turn hperm h (show v < MAXVPN by omega) pa (k + 1)
    · exact .inl ⟨hrun, v, Nat.le_refl v, Nat.le_add_right v _, hmapped⟩
    · refine .inr ⟨km', -1, 0, hrun, hgrown.tables, ?_, .inr ⟨rfl, Nat.zero_le _⟩⟩
      rw [hgrown.same, FlatMap.map_none]
    rw [page_succ] at hrun
    rw [hrun]
    obtain ⟨hrest, u, hvu, huk, hmapped⟩ | ⟨km', r, j, hrest, htables', hflat', hr⟩ :=
      ih (pa + .ofNat PGSIZE) htables (show v + 1 + k < MAXVPN by omega)
    · refine .inl ⟨hrest, u, by omega, by omega, ?_⟩
      rw [hflat, update_of_ne (by omega)] at hmapped
      exact hmapped
    · refine .inr ⟨km', r, j + 1, hrest, htables', ?_, by omega⟩
      rw [hflat', hflat, FlatMap.map_cons]

/-- The turns of the loop of `mappages`. -/
theorem turns_of_range {va size : Nat} (hsize : 0 < size) (hva : va + size ≤ MAXVA) :
    u64 (PGROUNDDOWN (u64 (va + size - 1)) + 2 ^ 64 - PGROUNDDOWN va) / PGSIZE = (va + size - 1) / PGSIZE - va / PGSIZE
      ∧ va / PGSIZE ≤ (va + size - 1) / PGSIZE ∧ (va + size - 1) / PGSIZE < MAXVPN := by
  simp only [u64, PGROUNDDOWN, PGSIZE, MAXVA, MAXVPN] at *
  omega

/-- **`mappages`** on the flat map, for a range below `MAXVA`. -/
theorem mappages_maps {va size : Nat} (pa : UInt64) (h : Tables L root km) (hperm : PTE_FLAGS perm = perm)
    (hsize : 0 < size) (hva : va + size ≤ MAXVA) : (mappages km root va size pa perm = .error (.panic "mappages: remap")
        ∧ ∃ u, va / PGSIZE ≤ u ∧ u ≤ (va + size - 1) / PGSIZE ∧ flat km root u ≠ none)
      ∨ ∃ km' r j, mappages km root va size pa perm = .ok (km', r) ∧ Tables L root km'
          ∧ flat km' root = FlatMap.map (flat km root) (va / PGSIZE) j pa perm
          ∧ (r = 0 ∧ va / PGSIZE + j = (va + size - 1) / PGSIZE + 1
            ∨ r = -1 ∧ va / PGSIZE + j ≤ (va + size - 1) / PGSIZE) := by
  obtain ⟨hcount, hle, hmax⟩ := turns_of_range hsize hva
  rw [mappages, if_neg (by omega)]
  dsimp only
  rw [hcount, PGROUNDDOWN]
  obtain ⟨hrun, u, hvu, huk, hmapped⟩ | ⟨km', r, j, hrun, htables, hflat, hr⟩ :=
    mappagesLoop_spec hperm ((va + size - 1) / PGSIZE - va / PGSIZE) pa h
      (show va / PGSIZE + _ < MAXVPN by omega)
  · exact .inl ⟨hrun, u, hvu, by omega, hmapped⟩
  · exact .inr ⟨km', r, j, hrun, htables, hflat, by omega⟩

/-- **Freeing a page that is no table** keeps the tables and the flat map. -/
theorem kfree_keeps {a : Nat} (h : Tables L root km) (hno : ∀ q, q.length ≤ 2 → node ptr (words km) root q ≠ some a)
    (hrun : kfree L km a = .ok km') : Tables L root km' ∧ flat km' root = flat km root
      ∧ ∀ q, q.length ≤ 2 → node ptr (words km') root q = node ptr (words km) root q := by
  have hin : L.inRange a = true := by
    by_contra hc
    rw [kfree, if_pos hc] at hrun
    cases hrun
  have hpos : 0 < km.num_ref_to_page (a / PGSIZE) := by
    by_contra hc
    rw [kfree, if_neg (not_not.mpr hin), if_pos (by omega)] at hrun
    cases hrun
  obtain ⟨km₁, hk, hfree, hcount, hmem⟩ := kfree_some hin hpos
  rw [hk] at hrun
  cases hrun
  apply h.frame
  · intro q b hq hb
    have hne : b ≠ a := fun heq => hno q hq (heq ▸ hb)
    refine ⟨hmem b hne, hcount _ fun heq => hne ?_⟩
    exact (page_index_inj (h.held q b hq hb).1 (inRange_aligned hin)).mp heq
  · intro r hr
    rcases List.mem_cons.mp (hfree hr) with rfl | hr
    · exact hin
    · exact h.free r hr

/-- No page of the range maps to a page that holds a table. -/
def NoTable (km : Kmem) (root v n : Nat) : Prop :=
  ∀ u, v ≤ u → u < v + n → ∀ pa fl, flat km root u = some (pa, fl) →
    ∀ q, q.length ≤ 2 → node ptr (words km) root q ≠ some pa.toNat

/-- What `uvmunmap` panics at: a page that is not mapped, or not as a leaf. -/
def NotLeaf (km : Kmem) (root u : Nat) : Prop := ∀ pa fl, flat km root u = some (pa, fl) → fl = PTE_V

variable {do_free : Bool}

/-- One turn of the loop of `uvmunmap`. -/
theorem uvmunmapLoop_turn (h : Tables L root km) (hv : v < MAXVPN) (hno : do_free = true → NoTable km root v (n + 1)) :
    (∃ f, uvmunmapLoop L root do_free (n + 1) km (v * PGSIZE) = .error f ∧ (do_free = true ∨ NotLeaf km root v))
      ∨ ∃ km', Tables L root km' ∧ flat km' root = update (flat km root) v none
          ∧ (∀ q, q.length ≤ 2 → node ptr (words km') root q = node ptr (words km) root q)
          ∧ uvmunmapLoop L root do_free (n + 1) km (v * PGSIZE)
            = uvmunmapLoop L root do_free n km' (v * PGSIZE + PGSIZE) := by
  rw [uvmunmapLoop, walk_false (va_lt hv)]
  simp only [Result.ok_bind]
  cases hp : node ptr (words km) root [PX 2 (v * PGSIZE), PX 1 (v * PGSIZE)] with
  | none =>
    refine .inl ⟨_, rfl, .inr ?_⟩
    intro pa fl hflat
    rw [flat_eq hv, Lib.Radix.read, path, hp] at hflat
    cases hflat
  | some page =>
    have hword := flat_word hv hp
    simp only [Option.map_some]
    by_cases hvalid : words km page (PX 0 (v * PGSIZE)) &&& PTE_V = 0
    · rw [if_pos hvalid]
      refine .inl ⟨_, rfl, .inr ?_⟩
      intro pa fl hflat
      rw [hword, slot, entry, if_neg (not_not.mpr hvalid)] at hflat
      cases hflat
    rw [if_neg hvalid]
    rw [slot, entry, if_pos hvalid] at hword
    by_cases hleaf : PTE_FLAGS (words km page (PX 0 (v * PGSIZE))) = PTE_V
    · rw [if_pos hleaf]
      refine .inl ⟨_, rfl, .inr ?_⟩
      intro pa fl hflat
      rw [hword] at hflat
      cases hflat
      exact hleaf
    rw [if_neg hleaf]
    -- from here on both variants clear the PTE
    have hclear : ∀ km₁, Tables L root km₁ → flat km₁ root = flat km root →
        (∀ q, q.length ≤ 2 → node ptr (words km₁) root q = node ptr (words km) root q) →
        Tables L root (store km₁ page (slot v) 0)
          ∧ flat (store km₁ page (slot v) 0) root = update (flat km root) v none
          ∧ ∀ q, q.length ≤ 2 → node ptr (words (store km₁ page (slot v) 0)) root q = node ptr (words km) root q := by
      intro km₁ h₁ hsame hnode
      have hp₁ : node ptr (words km₁) root (path v) = some page := (hnode _ (Nat.le_of_eq (path_length v))).trans hp
      obtain ⟨htables, hflat, hstored⟩ := h₁.store hv hp₁ 0
      rw [hsame, entry_zero] at hflat
      exact ⟨htables, hflat, fun q hq => (hstored q hq).trans (hnode q hq)⟩
    cases do_free with
    | false =>
      obtain ⟨htables, hflat, hnode⟩ := hclear km h rfl fun _ _ => rfl
      exact .inr ⟨_, htables, hflat, hnode, rfl⟩
    | true =>
      cases hk : kfree L km (PTE2PA (words km page (PX 0 (v * PGSIZE)))).toNat with
      | error f => exact .inl ⟨f, rfl, .inl rfl⟩
      | ok km₁ =>
        obtain ⟨h₁, hsame, hnode₁⟩ := kfree_keeps h (hno rfl v (Nat.le_refl v) (by omega) _ _ hword) hk
        obtain ⟨htables, hflat, hnode⟩ := hclear km₁ h₁ hsame hnode₁
        exact .inr ⟨_, htables, hflat, hnode, rfl⟩

/-- **The loop of `uvmunmap`** clears its pages.  Without freeing it panics only at a page that is not mapped as a
leaf. -/
theorem uvmunmapLoop_spec (n : Nat) :
    ∀ {km : Kmem} {v : Nat}, Tables L root km → v + n ≤ MAXVPN → (do_free = true → NoTable km root v n) →
      (∃ f, uvmunmapLoop L root do_free n km (v * PGSIZE) = .error f
        ∧ (do_free = true ∨ ∃ u, v ≤ u ∧ u < v + n ∧ NotLeaf km root u))
      ∨ ∃ km', uvmunmapLoop L root do_free n km (v * PGSIZE) = .ok km' ∧ Tables L root km'
          ∧ flat km' root = FlatMap.unmap (flat km root) v n := by
  induction n with
  | zero =>
    intro km v h _ _
    refine .inr ⟨km, by rw [uvmunmapLoop], h, ?_⟩
    rw [FlatMap.unmap_none]
  | succ n ih =>
    intro km v h hv hno
    obtain ⟨f, hrun, hwhy⟩ | ⟨km₁, htables, hflat, hnode, hrun⟩ :=
      uvmunmapLoop_turn h (show v < MAXVPN by omega) hno
    · exact .inl ⟨f, hrun, hwhy.imp_right fun hleaf => ⟨v, Nat.le_refl v, by omega, hleaf⟩⟩
    rw [hrun, page_succ]
    -- the pages still to come are mapped as before, and the tables are the same
    have hlater : ∀ u, v + 1 ≤ u → flat km₁ root u = flat km root u := by
      intro u hu
      rw [hflat, update_of_ne (by omega)]
    have hno₁ : do_free = true → NoTable km₁ root (v + 1) n := by
      intro hfree u hvu hun pa fl hmap q hq
      rw [hlater u hvu] at hmap
      rw [hnode q hq]
      exact hno hfree u (by omega) (by omega) pa fl hmap q hq
    obtain ⟨f, hrest, hwhy⟩ | ⟨km', hrest, htables', hflat'⟩ := ih htables (by omega) hno₁
    · refine .inl ⟨f, hrest, hwhy.imp_right ?_⟩
      intro ⟨u, hvu, hun, hleaf⟩
      refine ⟨u, by omega, by omega, fun pa fl hmap => hleaf pa fl ?_⟩
      rw [hlater u hvu, hmap]
    · refine .inr ⟨km', hrest, htables', ?_⟩
      rw [hflat', hflat, FlatMap.unmap_cons]

/-- **`uvmunmap`** on the flat map, for a range below `MAXVA`. -/
theorem uvmunmap_clears {va npages : Nat} (h : Tables L root km) (halign : va % PGSIZE = 0)
    (hva : va + npages * PGSIZE ≤ MAXVA) (hno : do_free = true → NoTable km root (va / PGSIZE) npages) :
    (∃ f, uvmunmap L km root va npages do_free = .error f
        ∧ (do_free = true ∨ ∃ u, va / PGSIZE ≤ u ∧ u < va / PGSIZE + npages ∧ NotLeaf km root u))
      ∨ ∃ km', uvmunmap L km root va npages do_free = .ok km' ∧ Tables L root km'
          ∧ flat km' root = FlatMap.unmap (flat km root) (va / PGSIZE) npages := by
  have hcount : (u64 (va + npages * PGSIZE) - va) / PGSIZE = npages := by
    simp only [u64, PGSIZE, MAXVA] at *
    omega
  have hmax : va / PGSIZE + npages ≤ MAXVPN := by
    simp only [PGSIZE, MAXVA, MAXVPN] at *
    omega
  have hpage : va / PGSIZE * PGSIZE = va := Nat.div_mul_cancel (Nat.dvd_of_mod_eq_zero halign)
  have hspec := uvmunmapLoop_spec npages h hmax hno
  rw [hpage] at hspec
  rw [uvmunmap, if_neg (not_not.mpr halign)]
  dsimp only
  rw [hcount]
  exact hspec

end Calls

/-! ## §5. Runs. -/

/-- The calls on a page table. -/
inductive Call where
  | mappages (va size : Nat) (pa perm : UInt64)
  | uvmunmap (va npages : Nat) (do_free : Bool)

/-- A call and what it returns. -/
def call (L : Layout) (root : Nat) (km : Kmem) : Call → Result (Kmem × Int)
  | .mappages va size pa perm => mappages km root va size pa perm
  | .uvmunmap va npages do_free => (uvmunmap L km root va npages do_free).map (·, 0)

/-- What a call leaves. -/
def step (L : Layout) (root : Nat) (km : Kmem) (c : Call) : Result Kmem := (call L root km c).map (·.1)

/-- The range of a call ends below `MAXVA`, `perm` has flag bits only, and no page holding a table is freed. -/
def fits (root : Nat) (km : Kmem) : Call → Prop
  | .mappages va size _ perm => va + size ≤ MAXVA ∧ PTE_FLAGS perm = perm
  | .uvmunmap va npages do_free =>
    va + npages * PGSIZE ≤ MAXVA ∧ (do_free = true → NoTable km root (va / PGSIZE) npages)

/-- What a call does to the flat map, by its return value. -/
def FlatMap.Step (m : FlatMap) (c : Call) (r : Int) (m' : FlatMap) : Prop :=
  match c with
  | .mappages va size pa perm =>
    ∃ n, m' = m.map (va / PGSIZE) n pa perm
      ∧ (r = 0 ∧ va / PGSIZE + n = (va + size - 1) / PGSIZE + 1
        ∨ r = -1 ∧ va / PGSIZE + n ≤ (va + size - 1) / PGSIZE)
  | .uvmunmap va npages _ => m' = m.unmap (va / PGSIZE) npages

section Runs

variable {L : Layout} {root : Nat} {km km' : Kmem} {c : Call} {r : Int}

/-- One call. -/
theorem call_keeps (h : Tables L root km) (hfits : fits root km c) (hrun : call L root km c = .ok (km', r)) :
    Tables L root km' ∧ FlatMap.Step (flat km root) c r (flat km' root) := by
  cases c with
  | mappages va size pa perm =>
    have hsize : 0 < size := by
      by_contra hc
      rw [call, mappages, if_pos (by omega)] at hrun
      cases hrun
    obtain ⟨hpanic, -⟩ | ⟨km₁, r₁, n, hmap, htables, hflat, hr⟩ := mappages_maps pa h hfits.2 hsize hfits.1
    · rw [call, hpanic] at hrun
      cases hrun
    · rw [call, hmap] at hrun
      cases hrun
      exact ⟨htables, n, hflat, hr⟩
  | uvmunmap va npages do_free =>
    have halign : va % PGSIZE = 0 := by
      by_contra hc
      rw [call, uvmunmap, if_pos hc] at hrun
      cases hrun
    obtain ⟨f, hpanic, -⟩ | ⟨km₁, hclear, htables, hflat⟩ := uvmunmap_clears h halign hfits.1 hfits.2
    · rw [call, hpanic] at hrun
      cases hrun
    · rw [call, hclear] at hrun
      cases hrun
      exact ⟨htables, hflat⟩

theorem step_keeps (h : Tables L root km) (hfits : fits root km c) (hrun : step L root km c = .ok km') :
    Tables L root km' := by
  rw [step] at hrun
  cases hc : call L root km c with
  | error f =>
    rw [hc] at hrun
    cases hrun
  | ok p =>
    rw [hc] at hrun
    cases hrun
    exact (call_keeps h hfits hc).1

end Runs

/-- **The page table is a flat map.**  After any sequence of calls the tables form a tree, a lookup depends on the page
number only, and the next call does to the flat map what its return value says. -/
theorem refines_flat {L : Layout} {root : Nat} {km : Kmem} (h : Lib.Reach (Tables L root) (fits root) (step L root) km) :
    Tree ptr (words km) root 2 ∧ (∀ va < MAXVA, lookup km root va = flat km root (va / PGSIZE))
      ∧ ∀ c km' r, fits root km c → call L root km c = .ok (km', r) →
          FlatMap.Step (flat km root) c r (flat km' root) := by
  have htables : Tables L root km := h.invariant (fun _ hs => hs) fun _ _ _ hs hok hst => step_keeps hs hok hst
  refine ⟨htables.tree, fun va hva => lookup_page hva, ?_⟩
  intro c km' r hfits hrun
  exact (call_keeps htables hfits hrun).2

/-- A cleared page is a page table that maps nothing. -/
theorem Tables.of_zero {L : Layout} {root : Nat} {km : Kmem} (hzero : ∀ i, words km root i = 0)
    (halign : root % PGSIZE = 0) (hheld : 0 < km.num_ref_to_page (root / PGSIZE))
    (hfree : ∀ r ∈ km.freelist, L.inRange r = true) : Tables L root km := by
  have hnode : ∀ q a, node ptr (words km) root q = some a → q = [] ∧ a = root := by
    intro q a ha
    cases q with
    | nil => exact ⟨rfl, (Option.some.inj ha).symm⟩
    | cons i q =>
      rw [Lib.Radix.node_cons, hzero, ptr_zero] at ha
      cases ha
  refine ⟨?_, ?_, hfree⟩
  · intro p q a _ _ hp hq
    rw [(hnode p a hp).1, (hnode q a hq).1]
  · intro q a _ ha
    rw [(hnode q a ha).2]
    exact ⟨halign, hheld⟩

/-- A new page table at `0x87fff000` and two free pages. -/
def emptyTable : Kmem where
  freelist := [0x87ffe000, 0x87ffd000]
  num_ref_to_page := fun i => if i = 0x87fff then 1 else 0
  mem := fun _ _ => 0

theorem emptyTable_tables : Tables Layout.small 0x87fff000 emptyTable :=
  .of_zero (words_zero fun _ => rfl) rfl (by decide) (by decide)

theorem refines_flat_emptyTable : fits 0x87fff000 emptyTable (.mappages 0 PGSIZE 0x87ffc000 (PTE_R ||| PTE_W))
      ∧ ∀ km' r, call Layout.small 0x87fff000 emptyTable (.mappages 0 PGSIZE 0x87ffc000 (PTE_R ||| PTE_W)) = .ok (km', r) →
          FlatMap.Step (flat emptyTable 0x87fff000) (.mappages 0 PGSIZE 0x87ffc000 (PTE_R ||| PTE_W)) r
            (flat km' 0x87fff000) := by
  have hfits : fits 0x87fff000 emptyTable (.mappages 0 PGSIZE 0x87ffc000 (PTE_R ||| PTE_W)) := ⟨by decide, rfl⟩
  exact ⟨hfits, fun km' r => (refines_flat (.start emptyTable_tables)).2.2 _ km' r hfits⟩

/-- **A table may be unmapped as a frame.**  Page 1 is mapped, page 0 is mapped to the level-0 table itself, and page 0
is unmapped and freed: the table is overwritten, and page 1 has another frame and other flags. -/
theorem frees_own_table : Tables Layout.small 0x87fff000 emptyTable ∧ (do
          let (km, _) ← mappages emptyTable 0x87fff000 PGSIZE PGSIZE 0x87ffc000 (PTE_R ||| PTE_W)
          let (km, _) ← mappages km 0x87fff000 0 PGSIZE 0x87ffd000 (PTE_R ||| PTE_W)
          let km' ← uvmunmap Layout.small km 0x87fff000 0 1 true
          return (lookup km 0x87fff000 PGSIZE, lookup km' 0x87fff000 PGSIZE))
        = .ok (some (0x87ffc000, PTE_R ||| PTE_W ||| PTE_V), some (0x404040404040000, 0x101)) := by
  refine ⟨emptyTable_tables, ?_⟩
  decide +kernel

/-! ## §6. Page tables as trees. -/

/-- The flags as bits. -/
def bits (f : Flags) : UInt64 :=
  let bit (b : Bool) (w : UInt64) := if b then w else 0
  bit f.v PTE_V ||| bit f.r PTE_R ||| bit f.w PTE_W ||| bit f.x 8 ||| bit f.u 16 ||| bit f.cow 256

/-- The flat map of a tree. -/
def FlatMap.of (f : Nat → Pte) : FlatMap := fun v =>
  if (f v).flags.v then some (frame (.ofNat (f v).pa), bits (f v).flags) else none

theorem of_mapRange (f : Nat → Pte) (v n pa : Nat) (perm : Flags) :
    FlatMap.of (mapRange f v n pa perm) = (FlatMap.of f).map v n (.ofNat pa) (bits perm) := by
  have hbits : ∀ f : Flags, bits (f ||| Xv6.PTE_V) = bits f ||| PTE_V ∧ (f ||| Xv6.PTE_V).v = true := by
    rintro ⟨v, r, w, x, u, cow⟩
    revert v r w x u cow
    decide
  funext u
  unfold FlatMap.of mapRange FlatMap.map
  split
  · rw [Pte.map, if_pos (hbits perm).2, (hbits perm).1, UInt64.ofNat_add]
  · rfl

/-- **The calls on trees** do to the flat map what those on words do. -/
theorem tree_refines {L : Layout} {km : Kmem} {pt : Pagetable} {F : Multiset PageRef} {va n : Nat} (hn : 0 < n) :
    (∀ pa perm, va + n ≤ MAXVA → (∀ i, va / PGSIZE ≤ i → i ≤ (va + n - 1) / PGSIZE → (pt.flat i).flags.v = false) →
      km.Owns L (pt.tables + F) → ∃ km' pt' r, Xv6.mappages km pt va n pa perm = .ok (km', pt', r)
        ∧ FlatMap.Step (.of pt.flat) (.mappages va n (.ofNat pa) (bits perm)) r (.of pt'.flat))
    ∧ ∀ do_free v, v + n ≤ MAXVPN → (∀ i, v ≤ i → i < v + n → (pt.flat i).mapped) →
      km.Owns L (pt.tables + (if do_free then frames pt.flat v n else 0) + F) →
      ∃ km' pt', Xv6.uvmunmap L km pt (v * PGSIZE) n do_free = .ok (km', pt')
        ∧ FlatMap.Step (.of pt.flat) (.uvmunmap (v * PGSIZE) n do_free) 0 (.of pt'.flat) := by
  refine ⟨fun pa perm hva hfree ho => ?_, fun do_free v hv hmap ho => ?_⟩
  · obtain ⟨hcount, hle, hmax⟩ := turns_of_range hn hva
    obtain ⟨km', pt', r, j, hrun, -, hflat, -, hr⟩ := Xv6.mappagesLoop_spec perm ((va + n - 1) / PGSIZE - va / PGSIZE) km pt
      (va / PGSIZE) pa (by omega) (fun i hi hi' => hfree i hi (by omega)) ho
    refine ⟨km', pt', r, ?_, j, by rw [hflat, of_mapRange], by omega⟩
    rw [Xv6.mappages, if_neg (by omega)]
    dsimp only
    rw [hcount]
    exact hrun
  · obtain ⟨km', pt', hrun, -, -, hflat⟩ := Xv6.uvmunmapLoop_spec do_free n km pt v hv hmap ho
    refine ⟨km', pt', by rw [Xv6.uvmunmap, if_neg (by simp), hrun], ?_⟩
    show FlatMap.of pt'.flat = _
    rw [hflat, Nat.mul_div_cancel v (by decide)]
    funext u
    unfold FlatMap.of clearRange FlatMap.unmap
    split <;> rfl

end Xv6.Heap
