/-
  Xv6.Mem.Pagetable — Sv39 page tables and their flat view
  (`kernel/riscv.h`, `walk` and `freewalk` of `kernel/vm.c`).

  A page table is a tree of three levels of 512-entry tables, each table
  living in a page of its own.  Interior entries are either empty or point
  to a lower table (`walk` installs nothing else); the entries of the lowest
  level are PTEs.

  The FLAT VIEW `flat pt v` is the PTE found for virtual page number `v`,
  the zero PTE where a table is missing.  Everything above this module
  reasons about page tables through the flat view and through `tables`, the
  multiset of pages that hold the tables.

  Main results:
    * `flat_setPte`      — storing a PTE updates the flat view at one page,
    * `flat_install_mid`, `flat_install_leaf` — an empty table changes nothing
      in the flat view.
-/
import Xv6.Mem.Kalloc

namespace Xv6

open Lib.Ref (own share cell_own cell)

/-! ## §1. Page-table entries. -/

/-- The permission and status bits of a PTE that the kernel uses. -/
structure Flags where
  v : Bool
  r : Bool
  w : Bool
  x : Bool
  u : Bool
  cow : Bool
  deriving DecidableEq, Repr

/-- No bit set. -/
def Flags.none : Flags := ⟨false, false, false, false, false, false⟩

/-- valid -/
def PTE_V : Flags := { Flags.none with v := true }
/-- readable -/
def PTE_R : Flags := { Flags.none with r := true }
/-- writable -/
def PTE_W : Flags := { Flags.none with w := true }
/-- executable -/
def PTE_X : Flags := { Flags.none with x := true }
/-- user can access -/
def PTE_U : Flags := { Flags.none with u := true }
/-- copy-on-write, one of the bits reserved for software -/
def PTE_COW : Flags := { Flags.none with cow := true }

/-- `a | b` -/
instance : OrOp Flags where
  or a b := ⟨a.v || b.v, a.r || b.r, a.w || b.w, a.x || b.x, a.u || b.u, a.cow || b.cow⟩

/-- Each bit of `a | b`. -/
theorem Flags.or_def (a b : Flags) : a ||| b
    = ⟨a.v || b.v, a.r || b.r, a.w || b.w, a.x || b.x, a.u || b.u, a.cow || b.cow⟩ := rfl

/-- `pte_t`: the page it points to (`PTE2PA`) and its bits (`PTE_FLAGS`). -/
structure Pte where
  pa : Nat
  flags : Flags
  deriving DecidableEq, Repr

/-- the zero word -/
def Pte.zero : Pte := ⟨0, Flags.none⟩

/-- `PA2PTE(pa) | perm | PTE_V` -/
def Pte.map (pa : Nat) (perm : Flags) : Pte := ⟨pa, perm ||| PTE_V⟩

/-- `pte & (PTE_R|PTE_W|PTE_X)` is non-zero. -/
def Pte.isLeaf (e : Pte) : Bool := e.flags.r || e.flags.w || e.flags.x

/-- The reference to its frame that a user PTE is: a copy-on-write PTE shares
the frame, any other owns it. -/
def Pte.ref (e : Pte) : PageRef := if e.flags.cow then share e.pa else own e.pa

@[simp] theorem Pte.ref_cell (e : Pte) : e.ref.cell = e.pa := by
  unfold Pte.ref
  split <;> rfl

/-! ## §2. Tables. -/

/-- A table of 512 entries and the page it lives in. -/
structure Table (α : Type) where
  page : Nat
  entry : Fin 512 → α

instance neZero_entries : NeZero 512 := ⟨nofun⟩

namespace Table

/-- Overwrite one entry. -/
def set {α : Type} (t : Table α) (i : Fin 512) (x : α) : Table α :=
  { t with entry := Function.update t.entry i x }

/-- A table freshly cleared by `memset(page, 0, PGSIZE)`. -/
def cleared {α : Type} (page : Nat) (zero : α) : Table α := ⟨page, fun _ => zero⟩

variable {α : Type} (t : Table α) (i : Fin 512) (x : α)

@[simp] theorem set_page : (t.set i x).page = t.page := rfl

@[simp] theorem set_entry_same : (t.set i x).entry i = x := Function.update_self ..

theorem set_entry_ne {j : Fin 512} (h : j ≠ i) : (t.set i x).entry j = t.entry j :=
  Function.update_of_ne h ..

theorem set_set (y : α) : (t.set i x).set i y = t.set i y := by
  simp [set]

theorem set_self (h : t.entry i = x) : t.set i x = t := by
  cases t
  simp only [set, Table.mk.injEq, true_and]
  exact Function.update_eq_self_iff.mpr h.symm

end Table

/-- The level-0 table: PTEs. -/
abbrev Leaf := Table Pte
/-- The level-1 table. -/
abbrev Mid := Table (Option Leaf)
/-- `pagetable_t`: the level-2 table at the root. -/
abbrev Pagetable := Table (Option Mid)

/-- `PX(level, va)`: nine bits of the virtual address. -/
def PX (level va : Nat) : Fin 512 := ⟨va / 2 ^ (12 + 9 * level) % 512, Nat.mod_lt _ (by omega)⟩

/-- The entry `*walk(pagetable, va, 0)`, or nothing where a table is missing. -/
def Pagetable.find (pt : Pagetable) (va : Nat) : Option Pte :=
  match pt.entry (PX 2 va) with
  | none => none
  | some m =>
    match m.entry (PX 1 va) with
    | none => none
    | some l => some (l.entry (PX 0 va))

/-- `*pte = e` through the pointer `pte = walk(pagetable, va, ..)`. -/
def Pagetable.setPte (pt : Pagetable) (va : Nat) (e : Pte) : Pagetable :=
  match pt.entry (PX 2 va) with
  | none => pt
  | some m =>
    match m.entry (PX 1 va) with
    | none => pt
    | some l => pt.set (PX 2 va) (some (m.set (PX 1 va) (some (l.set (PX 0 va) e))))

/-- Number of leaf entries a page table can hold. -/
def NVPN : Nat := 512 * 512 * 512

/-- Page numbers below `MAXVA`: `MAXVA / PGSIZE`. -/
def MAXVPN : Nat := 2 ^ 26

/-- **The flat view**: the PTE for virtual page number `v`. -/
def Pagetable.flat (pt : Pagetable) (v : Nat) : Pte :=
  if v < NVPN then (pt.find (v * PGSIZE)).getD Pte.zero else Pte.zero

/-! ## §3. The pages that hold the tables. -/

/-- Pages below an interior table, `g` counting those of a child. -/
@[irreducible] def Table.below {β : Type} (g : β → Multiset PageRef)
    (t : Table (Option β)) : Multiset PageRef :=
  ∑ i : Fin 512, (t.entry i).elim 0 g

/-- The page of a lowest table. -/
def Leaf.tables (l : Leaf) : Multiset PageRef := {own l.page}

/-- The pages of a middle table and those below it. -/
def Mid.tables (m : Mid) : Multiset PageRef := {own m.page} + m.below Leaf.tables

/-- All pages that hold tables of `pt`. -/
def Pagetable.tables (pt : Pagetable) : Multiset PageRef := {own pt.page} + pt.below Mid.tables

variable {β : Type}

/-- Replacing one child exchanges its pages. -/
theorem Table.below_set (g : β → Multiset PageRef) (t : Table (Option β)) (i : Fin 512) (b : β) :
    (t.set i (some b)).below g + (t.entry i).elim 0 g = t.below g + g b := by
  unfold Table.below
  exact Lib.sum_update (fun o : Option β => o.elim 0 g) t.entry i (some b)

variable {g : β → Multiset PageRef} {b : β} {t : Table (Option β)} {i : Fin 512}

theorem Table.below_set_same {b' : β} (h : t.entry i = some b') (hg : g b = g b') :
    (t.set i (some b)).below g = t.below g := by
  have hset := Table.below_set g t i b
  rw [h, Option.elim_some, hg] at hset
  exact add_right_cancel hset

/-- One child set apart: its pages and the rest, which a new child keeps. -/
theorem Table.below_split (g : β → Multiset PageRef) (h : t.entry i = some b) :
    ∃ rest, t.below g = g b + rest ∧ ∀ b', (t.set i (some b')).below g = g b' + rest := by
  obtain ⟨rest, hrest⟩ : ∃ rest, t.below g = g b + rest := by
    unfold Table.below
    refine ⟨∑ j ∈ Finset.univ.erase i, (t.entry j).elim 0 g, ?_⟩
    rw [← Finset.add_sum_erase _ _ (Finset.mem_univ i), h, Option.elim_some]
  refine ⟨rest, hrest, fun b' => ?_⟩
  have hset := Table.below_set g t i b'
  rw [h, Option.elim_some, hrest] at hset
  apply add_right_cancel (b := g b)
  rw [hset]
  abel

theorem Table.below_set_new
    (h : t.entry i = none) : (t.set i (some b)).below g = g b + t.below g := by
  have hset := Table.below_set g t i b
  rw [h, Option.elim_none, add_zero] at hset
  rw [hset, add_comm]

theorem tables_setPte (pt : Pagetable) (va : Nat) (e : Pte) : (pt.setPte va e).tables = pt.tables := by
  unfold Pagetable.setPte
  cases hm : pt.entry (PX 2 va) with
  | none => rfl
  | some m =>
    cases hl : m.entry (PX 1 va) with
    | none => simp only [hl]
    | some l =>
      simp only [hl]
      have hmid : Mid.tables (m.set (PX 1 va) (some (l.set (PX 0 va) e))) = m.tables := by
        have hlow : (m.set (PX 1 va) (some (l.set (PX 0 va) e))).below Leaf.tables
            = m.below Leaf.tables := Table.below_set_same hl rfl
        rw [Mid.tables, Mid.tables, Table.set_page, hlow]
      rw [Pagetable.tables, Pagetable.tables, Table.set_page, Table.below_set_same hm hmid]

theorem Table.below_own
    (hg : ∀ b, ∀ r ∈ g b, r = own r.cell) : ∀ r ∈ t.below g, r = own r.cell := by
  intro r hr
  unfold Table.below at hr
  rw [Multiset.mem_sum] at hr
  obtain ⟨i, -, hi⟩ := hr
  cases ht : t.entry i with
  | none => simp [ht] at hi
  | some b =>
    rw [ht, Option.elim_some] at hi
    exact hg b r hi

/-- A page that holds a table is owned by it. -/
theorem tables_own (pt : Pagetable) : ∀ r ∈ pt.tables, r = own r.cell := by
  have hleaf : ∀ l : Leaf, ∀ r ∈ l.tables, r = own r.cell := by
    intro l r hr
    rw [Leaf.tables, Multiset.mem_singleton] at hr
    rw [hr, cell_own]
  have hmid : ∀ m : Mid, ∀ r ∈ m.tables, r = own r.cell := by
    intro m r hr
    rw [Mid.tables, Multiset.mem_add, Multiset.mem_singleton] at hr
    rcases hr with hr | hr
    · rw [hr, cell_own]
    · exact Table.below_own hleaf r hr
  intro r hr
  rw [Pagetable.tables, Multiset.mem_add, Multiset.mem_singleton] at hr
  rcases hr with hr | hr
  · rw [hr, cell_own]
  · exact Table.below_own hmid r hr

variable {pt : Pagetable}

/-- Nobody else refers to a page that holds a table. -/
theorem Kmem.Owns.count_tables {L : Layout} {km : Kmem} {R : Multiset PageRef}
    {pa : Nat} (h : km.Owns L (pt.tables + R)) (hpa : pa ∈ R.map cell) : (pt.tables.map cell).count pa = 0 := by
  rw [Multiset.count_eq_zero]
  intro hin
  obtain ⟨r, hr, rfl⟩ := Multiset.mem_map.mp hin
  obtain ⟨T, hT⟩ := Multiset.exists_cons_of_mem hr
  rw [hT, tables_own pt r hr, Multiset.cons_add, ← Multiset.singleton_add] at h
  refine h.alone ?_
  rw [Multiset.map_add, Multiset.mem_add]
  exact .inr hpa

/-! ## §4. Lemmas about the flat view. -/

variable {v : Nat}

/-- The three indices determine the page number. -/
theorem PX_inj {u : Nat} (hv : v < NVPN) (hu : u < NVPN)
    (h2 : PX 2 (v * PGSIZE) = PX 2 (u * PGSIZE)) (h1 : PX 1 (v * PGSIZE) = PX 1 (u * PGSIZE))
    (h0 : PX 0 (v * PGSIZE) = PX 0 (u * PGSIZE)) : v = u := by
  simp only [PX, PGSIZE, NVPN, Fin.mk.injEq] at *
  omega

/-- The byte offset does not take part in the translation. -/
theorem PX_page (level va : Nat) : PX level (va / PGSIZE * PGSIZE) = PX level va := by
  have h : va / PGSIZE * PGSIZE / 2 ^ (12 + 9 * level) = va / 2 ^ (12 + 9 * level) := by
    rw [pow_add, ← Nat.div_div_eq_div_mul, ← Nat.div_div_eq_div_mul]
    congr 1
    simp only [PGSIZE]
    omega
  simp only [PX, h]

theorem find_page (pt : Pagetable) (va : Nat) : pt.find (va / PGSIZE * PGSIZE) = pt.find va := by
  simp only [Pagetable.find, PX_page]

theorem setPte_page (pt : Pagetable) (va : Nat) (e : Pte) : pt.setPte (va / PGSIZE * PGSIZE) e = pt.setPte va e := by
  simp only [Pagetable.setPte, PX_page]

variable {va : Nat}

theorem vpn_lt (h : va < MAXVA) : va / PGSIZE < NVPN := by
  simp only [MAXVA, PGSIZE, NVPN] at *
  omega

theorem va_lt (h : v < MAXVPN) : v * PGSIZE < MAXVA := by
  simp only [MAXVPN, PGSIZE, MAXVA] at *
  omega

@[simp] theorem va_div (v : Nat) : v * PGSIZE / PGSIZE = v :=
  Nat.mul_div_cancel v (by simp only [PGSIZE]; omega)

theorem va_succ (v : Nat) : v * PGSIZE + PGSIZE = (v + 1) * PGSIZE :=
  (Nat.succ_mul v PGSIZE).symm

/-- What `walk` finds is what the flat view shows. -/
theorem flat_of_find {e : Pte} (hva : va < MAXVA) (h : pt.find va = some e) : pt.flat (va / PGSIZE) = e := by
  simp only [Pagetable.flat, vpn_lt hva, if_true, find_page, h, Option.getD_some]

/-- A valid PTE of the flat view is found by `walk`. -/
theorem find_of_flat (pt : Pagetable) (hva : va < MAXVA) (h : (pt.flat (va / PGSIZE)).flags.v = true) :
    pt.find va = some (pt.flat (va / PGSIZE)) := by
  simp only [Pagetable.flat, vpn_lt hva, if_true, find_page] at h ⊢
  cases hf : pt.find va with
  | none =>
    rw [hf] at h
    exact absurd h (by simp [Pte.zero, Flags.none])
  | some e => rfl

theorem find_setPte_same (e : Pte) (h : (pt.find va).isSome) : (pt.setPte va e).find va = some e := by
  unfold Pagetable.find Pagetable.setPte at *
  cases hm : pt.entry (PX 2 va) with
  | none => simp [hm] at h
  | some m =>
    cases hl : m.entry (PX 1 va) with
    | none => simp [hm, hl] at h
    | some l => simp [hl]

/-- Storing a PTE leaves the PTEs of all other pages. -/
theorem find_setPte_ne {u : Nat} (e : Pte) (hv : v < NVPN) (hu : u < NVPN)
    (hne : u ≠ v) : (pt.setPte (v * PGSIZE) e).find (u * PGSIZE) = pt.find (u * PGSIZE) := by
  unfold Pagetable.find Pagetable.setPte
  cases hm : pt.entry (PX 2 (v * PGSIZE)) with
  | none => rfl
  | some m =>
    cases hl : m.entry (PX 1 (v * PGSIZE)) with
    | none => simp only [hl]
    | some l =>
      simp only [hl]
      by_cases h2 : PX 2 (u * PGSIZE) = PX 2 (v * PGSIZE)
      · rw [h2, Table.set_entry_same, hm]
        by_cases h1 : PX 1 (u * PGSIZE) = PX 1 (v * PGSIZE)
        · have h0 : PX 0 (u * PGSIZE) ≠ PX 0 (v * PGSIZE) :=
            fun h0 => hne (PX_inj hu hv h2 h1 h0)
          simp only [h1, Table.set_entry_same, hl, Table.set_entry_ne _ _ _ h0]
        · simp only [Table.set_entry_ne _ _ _ h1]
      · rw [Table.set_entry_ne _ _ _ h2]

/-- **Storing a PTE updates the flat view at exactly one page.** -/
theorem flat_setPte (e : Pte) (hva : va < MAXVA) (h : (pt.find va).isSome) :
    (pt.setPte va e).flat = Function.update pt.flat (va / PGSIZE) e := by
  funext u
  by_cases hu : u < NVPN
  · by_cases hne : u = va / PGSIZE
    · subst hne
      rw [Function.update_self]
      exact flat_of_find hva (find_setPte_same e h)
    · rw [Function.update_of_ne hne]
      simp only [Pagetable.flat, hu, if_true, ← setPte_page pt va e]
      rw [find_setPte_ne e (vpn_lt hva) hu hne]
  · have hne : u ≠ va / PGSIZE := fun he => hu (he ▸ vpn_lt hva)
    rw [Function.update_of_ne hne]
    simp only [Pagetable.flat, hu, if_false]

/-- An entry of an interior table that was empty may be given a table in which
nothing is found: the flat view stays. -/
theorem flat_set_root {m : Mid} (h : ∀ va, PX 2 va = i →
      (Pagetable.find (pt.set i (some m)) va).getD Pte.zero = (pt.find va).getD Pte.zero) :
    Pagetable.flat (pt.set i (some m)) = pt.flat := by
  funext u
  by_cases hu : u < NVPN
  · simp only [Pagetable.flat, hu, if_true]
    by_cases hi : PX 2 (u * PGSIZE) = i
    · exact h _ hi
    · simp only [Pagetable.find, Table.set_entry_ne _ _ _ hi]
  · simp only [Pagetable.flat, hu, if_false]

theorem flat_install_mid (page : Nat) (h : pt.entry i = none) :
    Pagetable.flat (pt.set i (some (Table.cleared page none))) = pt.flat := by
  apply flat_set_root
  intro va hva
  simp [Pagetable.find, hva, h, Table.cleared]

theorem flat_install_leaf {j : Fin 512} {m : Mid} (page : Nat) (hm : pt.entry i = some m) (hl : m.entry j = none) :
    Pagetable.flat (pt.set i (some (m.set j (some (Table.cleared page Pte.zero))))) = pt.flat := by
  apply flat_set_root
  intro va hva
  simp only [Pagetable.find, hva, Table.set_entry_same, hm]
  by_cases hj : PX 1 va = j
  · simp [hj, hl, Table.cleared]
  · simp only [Table.set_entry_ne _ _ _ hj]

theorem find_cleared (page va : Nat) : Pagetable.find (Table.cleared page none) va = none := rfl

theorem flat_cleared (page : Nat) : Pagetable.flat (Table.cleared page none) = fun _ => Pte.zero := by
  funext v
  simp only [Pagetable.flat, find_cleared, Option.getD_none, ite_self]

theorem tables_cleared (page : Nat) : Pagetable.tables (Table.cleared page none) = {own page} := by
  unfold Pagetable.tables Table.below
  simp [Table.cleared]

end Xv6
