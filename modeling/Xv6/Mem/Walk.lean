/-
  Xv6.Mem.Walk — walking, mapping, unmapping and freeing page tables
  (`walk`, `walkaddr`, `mappages`, `uvmunmap`, `freewalk` of `kernel/vm.c`).

  Each function is translated on the tree of tables and then specified on
  the flat view, with the references it moves:

    * `walk_alloc_spec`  — adds tables, keeps the flat view; null only when
      no page is left,
    * `mappagesLoop_spec` — maps a prefix of the range; all of it unless no
      page is left,
    * `uvmunmap_free_spec`, `uvmunmap_keep_spec` — clear a mapped range, with
      and without giving back its frames,
    * `freewalk_spec`    — gives back every table of a page table without
      leaves.

  `F` is always the frame: references of everybody else, which keep their
  counts and their contents.
-/
import Xv6.Mem.Pagetable

namespace Xv6

open Function (update update_of_ne)
open Lib.Ref (own)

/-! ## §1. The functions. -/

/-- One turn of the loop of `walk`: follow the entry, or install a cleared
table when `alloc` is set and a page is left. -/
def walkLevel {β : Type} (fresh : Nat → β) (km : Kmem) (t : Table (Option β)) (i : Fin 512)
    (alloc : Bool) : Kmem × Table (Option β) × Option β :=
  match t.entry i with
  | some b => (km, t, some b)
  | none =>
    if alloc then
      match kalloc km with
      | (km', none) => (km', t, none)
      | (km', some page) =>
        (km'.memset page 0, t.set i (some (fresh page)), some (fresh page))
    else (km, t, none)

/-- `walk(pagetable, va, alloc)`.  The pointer it returns is represented by
the entry it points to; a store through it is `setPte`. -/
def walk (km : Kmem) (pt : Pagetable) (va : Nat) (alloc : Bool) :
    Result (Kmem × Pagetable × Option Pte) :=
  if va ≥ MAXVA then .error (.panic "walk")
  else
    match walkLevel (fun page => Table.cleared page none) km pt (PX 2 va) alloc with
    | (km₁, pt₁, none) => .ok (km₁, pt₁, none)
    | (km₁, pt₁, some m) =>
      match walkLevel (fun page => Table.cleared page Pte.zero) km₁ m (PX 1 va) alloc with
      | (km₂, m₂, l?) =>
        .ok (km₂, pt₁.set (PX 2 va) (some m₂), l?.map fun l => l.entry (PX 0 va))

/-- `walkaddr(pagetable, va)`: the page of a valid user mapping, or null. -/
def walkaddr (pt : Pagetable) (va : Nat) : Option Nat :=
  if va ≥ MAXVA then none
  else
    match pt.find va with
    | none => none
    | some e => if e.flags.v = false then none else if e.flags.u = false then none else some e.pa

/-- The loop of `mappages`, `k` pages still to map after this one. -/
def mappagesLoop (perm : Flags) : Nat → Kmem → Pagetable → Nat → Nat →
    Result (Kmem × Pagetable × Int)
  | k, km, pt, a, pa => do
      let (km, pt, pte) ← walk km pt a true
      match pte with
      | none => .ok (km, pt, -1)
      | some e =>
        if e.flags.v then .error (.panic "mappages: remap")
        else
          let pt := pt.setPte a (Pte.map pa perm)
          match k with
          | 0 => .ok (km, pt, 0)
          | k + 1 => mappagesLoop perm k km pt (a + PGSIZE) (pa + PGSIZE)

/-- `mappages(pagetable, va, size, pa, perm)` -/
def mappages (km : Kmem) (pt : Pagetable) (va size pa : Nat) (perm : Flags) :
    Result (Kmem × Pagetable × Int) :=
  if size = 0 then .error (.panic "mappages: size")
  else
    let a := PGROUNDDOWN va
    let last := PGROUNDDOWN (u64 (va + size - 1))
    mappagesLoop perm (u64 (last + 2 ^ 64 - a) / PGSIZE) km pt a pa

section

variable (L : Layout)

/-- The loop of `uvmunmap`, `n` pages from `a` on. -/
def uvmunmapLoop (do_free : Bool) : Nat → Kmem → Pagetable → Nat → Result (Kmem × Pagetable)
  | 0, km, pt, _ => .ok (km, pt)
  | n + 1, km, pt, a => do
      let (km, pt, pte) ← walk km pt a false
      match pte with
      | none => .error (.panic "uvmunmap: walk")
      | some e =>
        if e.flags.v = false then .error (.panic "uvmunmap: not mapped")
        else if e.flags = PTE_V then
          .error (.panic "uvmunmap: not a leaf")
        else
          let km ← if do_free then kfree L km e.pa else .ok km
          uvmunmapLoop do_free n km (pt.setPte a Pte.zero) (a + PGSIZE)

/-- `uvmunmap(pagetable, va, npages, do_free)` -/
def uvmunmap (km : Kmem) (pt : Pagetable) (va npages : Nat) (do_free : Bool) :
    Result (Kmem × Pagetable) :=
  if va % PGSIZE ≠ 0 then .error (.panic "uvmunmap: not aligned")
  else uvmunmapLoop L do_free npages km pt va

/-- The loop of `freewalk` over the entries of an interior table. -/
def freeEntries {β : Type} (free : Kmem → β → Result Kmem) :
    List (Option β) → Kmem → Result Kmem
  | [], km => .ok km
  | none :: es, km => freeEntries free es km
  | some b :: es, km => (free km b).bind (freeEntries free es)

/-- The loop of `freewalk` over the entries of a level-0 table.  A valid entry
without R, W and X would send the source on into a data page. -/
def scanLeaf : List Pte → Result Unit
  | [] => .ok ()
  | e :: es =>
    if e.flags.v then
      if e.isLeaf then .error (.panic "freewalk: leaf") else .error .wild
    else scanLeaf es

/-- `freewalk` on a level-0 table -/
def freewalk0 (km : Kmem) (l : Leaf) : Result Kmem := do
  scanLeaf ((List.finRange 512).map l.entry)
  kfree L km l.page

/-- `freewalk` on a level-1 table -/
def freewalk1 (km : Kmem) (m : Mid) : Result Kmem := do
  let km ← freeEntries (freewalk0 L) ((List.finRange 512).map m.entry) km
  kfree L km m.page

/-- `freewalk(pagetable)` -/
def freewalk (km : Kmem) (pt : Pagetable) : Result Kmem := do
  let km ← freeEntries (freewalk1 L) ((List.finRange 512).map pt.entry) km
  kfree L km pt.page

end

/-! ## §2. `walk`. -/

/-- **`walk(.., 0)` only looks.** -/
theorem walk_noalloc (km : Kmem) (pt : Pagetable) {va : Nat} (hva : va < MAXVA) :
    walk km pt va false = .ok (km, pt, pt.find va) := by
  have hlt : ¬ va ≥ MAXVA := by omega
  cases hm : pt.entry (PX 2 va) with
  | none => simp [walk, hlt, walkLevel, Pagetable.find, hm]
  | some m =>
    have hset : pt.set (PX 2 va) (some m) = pt := Table.set_self _ _ _ hm
    cases hl : m.entry (PX 1 va) with
    | none | some l => simp [walk, hlt, walkLevel, Pagetable.find, hm, hl, hset]

section Specs

variable {L : Layout} {km : Kmem} {F : Multiset PageRef} {β : Type} {g : β → Multiset PageRef}

/-- **One level of `walk(.., 1)`.**  Either the entry was there, or the
allocator is empty, or one new page holds the new, cleared table. -/
theorem walkLevel_alloc_spec (fresh : Nat → β)
    (hfresh : ∀ page, g (fresh page) = {own page}) {t : Table (Option β)} (i : Fin 512)
    (h : km.Owns L (t.below g + F)) : (∃ b, t.entry i = some b ∧ walkLevel fresh km t i true = (km, t, some b)) ∨
    (t.entry i = none ∧ km.freelist = [] ∧ walkLevel fresh km t i true = (km, t, none)) ∨
    (∃ km' page, t.entry i = none ∧ walkLevel fresh km t i true = (km', t.set i (some (fresh page)), some (fresh page))
      ∧ Moves L km km' (t.below g) ((t.set i (some (fresh page))).below g) F
      ∧ ((t.set i (some (fresh page))).below g).card = (t.below g).card + 1) := by
  cases ht : t.entry i with
  | some b =>
    left
    exact ⟨b, rfl, by simp [walkLevel, ht]⟩
  | none =>
    right
    rcases kalloc_spec h with ⟨hk, hfree⟩ | ⟨page, km₁, hk, hmv, -⟩
    · left
      exact ⟨rfl, hfree, by simp [walkLevel, ht, hk]⟩
    right
    refine ⟨km₁.memset page 0, page, rfl, by simp [walkLevel, ht, hk], ?_⟩
    have hnew := Table.below_set_new (g := g) (b := fresh page) ht
    rw [hfresh] at hnew
    refine ⟨(hmv.memset (by simp)).frame.of_eq (zero_add _).symm hnew rfl, ?_⟩
    rw [hnew, Multiset.card_add, Multiset.card_singleton, Nat.add_comm]

variable {pt : Pagetable}

/-- The second level of `walk(.., 1)`, inside a root whose entry is `m`. -/
theorem walk_mid_spec (va : Nat) {m : Mid}
    (hm : pt.entry (PX 2 va) = some m) (h : km.Owns L (pt.tables + F)) :
    ∃ km' m' l?, walkLevel (fun page => Table.cleared page Pte.zero) km m (PX 1 va) true
        = (km', m', l?)
      ∧ Pagetable.find (pt.set (PX 2 va) (some m')) va = l?.map (fun l => l.entry (PX 0 va))
      ∧ Moves L km km' pt.tables (Pagetable.tables (pt.set (PX 2 va) (some m'))) F
      ∧ Pagetable.flat (pt.set (PX 2 va) (some m')) = pt.flat
      ∧ (Pagetable.tables (pt.set (PX 2 va) (some m'))).card
          ≤ pt.tables.card + (if (pt.find va).isSome then 0 else 1)
      ∧ (l? = none → km'.freelist = []) := by
  obtain ⟨rest, hbelow, hset⟩ := Table.below_split Mid.tables hm
  have hpt : pt.tables = m.below Leaf.tables + ({own m.page} + ({own pt.page} + rest)) := by
    rw [Pagetable.tables, hbelow, Mid.tables]
    abel
  have htr : km.Owns L (m.below Leaf.tables + ({own m.page} + ({own pt.page} + rest) + F)) :=
    h.of_eq (by rw [hpt]; abel)
  have hself : pt.set (PX 2 va) (some m) = pt := Table.set_self _ _ _ hm
  rcases walkLevel_alloc_spec (fun page => Table.cleared page Pte.zero)
      (g := Leaf.tables) (fun _ => rfl) (PX 1 va) htr with
    ⟨l, hl, hw⟩ | ⟨hl, hfree, hw⟩ | ⟨km', page, hl, hw, hmv, hcard⟩
  · refine ⟨km, m, some l, hw, ?_, ?_, ?_, ?_, fun h => by cases h⟩
    · rw [hself]
      simp [Pagetable.find, hm, hl]
    · rw [hself]; exact Moves.refl h
    · rw [hself]
    · rw [hself]; omega
  · refine ⟨km, m, none, hw, ?_, ?_, ?_, ?_, fun _ => hfree⟩
    · rw [hself]
      simp [Pagetable.find, hm, hl]
    · rw [hself]; exact Moves.refl h
    · rw [hself]
    · rw [hself]; omega
  have hnew : Pagetable.tables
        (pt.set (PX 2 va) (some (m.set (PX 1 va) (some (Table.cleared page Pte.zero)))))
      = (m.set (PX 1 va) (some (Table.cleared page Pte.zero))).below Leaf.tables
          + ({own m.page} + ({own pt.page} + rest)) := by
    rw [Pagetable.tables, Table.set_page, hset, Mid.tables, Table.set_page]
    abel
  have hnone : pt.find va = none := by simp [Pagetable.find, hm, hl]
  refine ⟨km', _, _, hw, ?_, ?_, ?_, ?_, fun h => by cases h⟩
  · simp [Pagetable.find, Table.cleared]
  · exact hmv.frame.of_eq hpt hnew rfl
  · exact flat_install_leaf page hm hl
  · simp only [hnew, hpt, Multiset.card_add, hcard, hnone, Option.isSome_none,
      Bool.false_eq_true, if_false]
    omega

/-- **`walk(.., 1)`** adds the tables that are missing.  The flat view stays,
and null is returned only when no page is left. -/
theorem walk_alloc_spec {va : Nat} (hva : va < MAXVA)
    (h : km.Owns L (pt.tables + F)) :
    ∃ km' pt', walk km pt va true = .ok (km', pt', pt'.find va)
      ∧ Moves L km km' pt.tables pt'.tables F
      ∧ pt'.flat = pt.flat
      ∧ pt'.tables.card ≤ pt.tables.card + (if (pt.find va).isSome then 0 else 2)
      ∧ (pt'.find va = none → km'.freelist = []) := by
  have hlt : ¬ va ≥ MAXVA := by omega
  have htr : km.Owns L (pt.below Mid.tables + ({own pt.page} + F)) :=
    h.of_eq (by rw [Pagetable.tables]; abel)
  have hfresh : ∀ page, Mid.tables (Table.cleared page none) = {own page} := by
    intro page
    unfold Mid.tables Table.below
    simp [Table.cleared]
  rcases walkLevel_alloc_spec (fun page => Table.cleared page none)
      hfresh (PX 2 va) htr with
    ⟨m, hm, hw⟩ | ⟨hm, hfree, hw⟩ | ⟨km₁, page, hm, hw, hmv, hcard⟩
  · obtain ⟨km', m', l?, hw', hfind, hmv, hflat, hcard, hnone⟩ := walk_mid_spec va hm h
    refine ⟨km', _, ?_, hmv, hflat, ?_, ?_⟩
    · simp only [walk, hlt, if_false, hw, hw', hfind]
    · refine hcard.trans ?_
      split <;> omega
    · intro hn
      rw [hfind, Option.map_eq_none_iff] at hn
      exact hnone hn
  · refine ⟨km, pt, ?_, Moves.refl h, rfl, by omega, fun _ => hfree⟩
    simp [walk, hlt, hw, Pagetable.find, hm]
  -- a new level-1 table, in which the level-0 table is missing too
  have hmv₁ : Moves L km km₁ pt.tables
      (Pagetable.tables (pt.set (PX 2 va) (some (Table.cleared page none)))) F :=
    hmv.frame.of_eq (by rw [Pagetable.tables]; abel)
      (by rw [Pagetable.tables, Table.set_page]; abel) rfl
  obtain ⟨km', m', l?, hw', hfind, hmv', hflat, hcard', hnone⟩ :=
    walk_mid_spec va (Table.set_entry_same ..) hmv₁.after
  have hmv₂ := hmv₁.trans hmv'
  rw [Table.set_set] at hfind hmv₂ hflat hcard'
  have hcost : (if (Pagetable.find (pt.set (PX 2 va) (some (Table.cleared page none))) va).isSome
      then 0 else 1) ≤ 1 := by split <;> omega
  have hroot : (Pagetable.tables (pt.set (PX 2 va) (some (Table.cleared page none)))).card
      = pt.tables.card + 1 := by
    rw [Pagetable.tables, Pagetable.tables, Multiset.card_add, Multiset.card_add,
      Table.set_page, hcard]
    omega
  have hmiss : pt.find va = none := by simp [Pagetable.find, hm]
  refine ⟨km', pt.set (PX 2 va) (some m'), ?_, hmv₂, ?_, ?_, ?_⟩
  · simp only [walk, hlt, if_false, hw, hw', hfind, Table.set_set]
  · rw [hflat]
    exact flat_install_mid page hm
  · simp only [hmiss, Option.isSome_none, Bool.false_eq_true, if_false]
    omega
  · intro hn
    rw [hfind, Option.map_eq_none_iff] at hn
    exact hnone hn

/-! ## §3. Ranges of the flat view. -/

/-- `f` with `k` pages from `v` on mapped to consecutive frames from `pa` on. -/
def mapRange (f : Nat → Pte) (v k pa : Nat) (perm : Flags) : Nat → Pte :=
  fun i => if v ≤ i ∧ i < v + k then Pte.map (pa + (i - v) * PGSIZE) perm else f i

/-- `f` with `n` pages from `v` on cleared. -/
def clearRange (f : Nat → Pte) (v n : Nat) : Nat → Pte :=
  fun i => if v ≤ i ∧ i < v + n then Pte.zero else f i

/-- The frames mapped at the `n` pages from `v` on, one reference per page. -/
def frames (f : Nat → Pte) (v n : Nat) : Multiset PageRef :=
  ((List.range' v n).map fun i => (f i).ref : List PageRef)

@[simp] theorem frames_zero (f : Nat → Pte) (v : Nat) : frames f v 0 = 0 := rfl

theorem frames_succ (f : Nat → Pte) (v n : Nat) : frames f v (n + 1) = {(f v).ref} + frames f (v + 1) n := by
  rfl

theorem frames_concat (f : Nat → Pte) (v n : Nat) : frames f v (n + 1) = frames f v n + {(f (v + n)).ref} := by
  simp only [frames, List.range'_concat, List.map_append, Nat.one_mul]
  rfl

variable {f : Nat → Pte} {v n : Nat}

theorem mem_frames {r : PageRef} : r ∈ frames f v n ↔ ∃ i, v ≤ i ∧ i < v + n ∧ (f i).ref = r := by
  simp [frames, List.mem_range'_1, and_assoc]

theorem frames_congr {g : Nat → Pte}
    (h : ∀ i, v ≤ i → i < v + n → (f i).ref = (g i).ref) : frames f v n = frames g v n := by
  unfold frames
  congr 1
  apply List.map_congr_left
  intro i hi
  rw [List.mem_range'_1] at hi
  exact h i hi.1 hi.2

/-- The frames of a range split at any page. -/
theorem frames_add (f : Nat → Pte) (v m n : Nat) : frames f v (m + n) = frames f v m + frames f (v + m) n := by
  simp only [frames, ← List.range'_append_1, List.map_append]
  rfl

theorem mapRange_zero (f : Nat → Pte) (v pa : Nat) (perm : Flags) : mapRange f v 0 pa perm = f := by
  funext i
  have hi : ¬ (v ≤ i ∧ i < v + 0) := by omega
  simp only [mapRange, hi, if_false]

theorem mapRange_succ (f : Nat → Pte) (v k pa : Nat) (perm : Flags) :
    mapRange (update f v (Pte.map pa perm)) (v + 1) k (pa + PGSIZE) perm = mapRange f v (k + 1) pa perm := by
  funext i
  simp only [mapRange]
  by_cases hv : i = v
  · subst hv
    have h₂ : i ≤ i ∧ i < i + (k + 1) := by omega
    simp [h₂]
  rw [update_of_ne hv]
  by_cases hin : v + 1 ≤ i ∧ i < v + 1 + k
  · have h₂ : v ≤ i ∧ i < v + (k + 1) := by omega
    rw [if_pos hin, if_pos h₂]
    congr 1
    obtain ⟨d, rfl⟩ := Nat.exists_eq_add_of_le hin.1
    have e₁ : v + 1 + d - (v + 1) = d := by omega
    have e₂ : v + 1 + d - v = d + 1 := by omega
    rw [e₁, e₂, Nat.add_mul]
    omega
  · have h₂ : ¬ (v ≤ i ∧ i < v + (k + 1)) := by omega
    rw [if_neg hin, if_neg h₂]

theorem mapRange_one (f : Nat → Pte) (v pa : Nat) (perm : Flags) :
    mapRange f v 1 pa perm = update f v (Pte.map pa perm) := by
  rw [← mapRange_succ, mapRange_zero]

theorem clearRange_succ (f : Nat → Pte) (v n : Nat) :
    clearRange (update f v Pte.zero) (v + 1) n = clearRange f v (n + 1) := by
  funext i
  simp only [clearRange]
  by_cases hv : i = v
  · subst hv
    have h₂ : i ≤ i ∧ i < i + (n + 1) := by omega
    simp [h₂]
  · rw [update_of_ne hv]
    by_cases hin : v + 1 ≤ i ∧ i < v + 1 + n
    · rw [if_pos hin, if_pos (by omega)]
    · rw [if_neg hin, if_neg (by omega)]

/-! ## §4. `mappages`. -/

/-- The tables that `walk(.., 1)` may have to add for page `v`. -/
def tableCost (pt : Pagetable) (v : Nat) : Nat :=
  if (pt.find (v * PGSIZE)).isSome then 0 else 2

/-- The next page uses the same tables, unless it starts a table of its own. -/
theorem tableCost_succ (h : (pt.find (v * PGSIZE)).isSome) (hv : (v + 1) % 512 ≠ 0) : tableCost pt (v + 1) = 0 := by
  have h2 : PX 2 ((v + 1) * PGSIZE) = PX 2 (v * PGSIZE) := by
    ext
    simp only [PX, PGSIZE]
    omega
  have h1 : PX 1 ((v + 1) * PGSIZE) = PX 1 (v * PGSIZE) := by
    ext
    simp only [PX, PGSIZE]
    omega
  have hsome : (pt.find ((v + 1) * PGSIZE)).isSome := by
    simp only [Pagetable.find, h2, h1] at h ⊢
    cases hm : pt.entry (PX 2 (v * PGSIZE)) with
    | none => simp [hm] at h
    | some m =>
      cases hl : m.entry (PX 1 (v * PGSIZE)) with
      | none => simp [hm, hl] at h
      | some l => simp [hl]
  simp [tableCost, hsome]

theorem tableCost_le (pt : Pagetable) (v : Nat) : tableCost pt v ≤ 2 := by
  unfold tableCost
  split <;> omega

/-- **One turn of `mappages`** on an unmapped page: no page is left for a
table, or the page is mapped. -/
theorem mappages_turn (perm : Flags) (pa : Nat) (hv : v < MAXVPN)
    (hfree : (pt.flat v).flags.v = false) (h : km.Owns L (pt.tables + F)) :
    ∃ km' pt₁, walk km pt (v * PGSIZE) true = .ok (km', pt₁, pt₁.find (v * PGSIZE))
      ∧ Moves L km km' pt.tables pt₁.tables F ∧ pt₁.tables.card ≤ pt.tables.card + tableCost pt v ∧ pt₁.flat = pt.flat
      ∧ ((pt₁.find (v * PGSIZE) = none ∧ km'.freelist = []) ∨ ∃ e, pt₁.find (v * PGSIZE) = some e ∧ e.flags.v = false
          ∧ (pt₁.setPte (v * PGSIZE) (Pte.map pa perm)).flat = update pt.flat v (Pte.map pa perm)
          ∧ ((pt₁.setPte (v * PGSIZE) (Pte.map pa perm)).find (v * PGSIZE)).isSome) := by
  have hva : v * PGSIZE < MAXVA := va_lt hv
  have hdiv : v * PGSIZE / PGSIZE = v := va_div v
  obtain ⟨km₁, pt₁, hw, hmv₁, hflat₁, hcard, hnone⟩ := walk_alloc_spec hva h
  refine ⟨km₁, pt₁, hw, hmv₁, hcard, hflat₁, ?_⟩
  cases hfind : pt₁.find (v * PGSIZE) with
  | none => exact .inl ⟨rfl, hnone hfind⟩
  | some e =>
    refine .inr ⟨e, rfl, ?_, ?_, ?_⟩
    · have hfl := flat_of_find hva hfind
      rw [hdiv, hflat₁] at hfl
      rw [← hfl]
      exact hfree
    · rw [flat_setPte _ hva (by rw [hfind]; rfl), hdiv, hflat₁]
    · rw [find_setPte_same _ (by rw [hfind]; rfl)]
      rfl

/-- **The loop of `mappages`** maps a prefix of the range; the whole range
unless no page is left for a table.  It needs two tables at most for every
512 pages it enters. -/
theorem mappagesLoop_spec (perm : Flags) (k : Nat) : ∀ (km : Kmem) (pt : Pagetable) (v pa : Nat), v + k < MAXVPN →
      (∀ i, v ≤ i → i ≤ v + k → (pt.flat i).flags.v = false) → km.Owns L (pt.tables + F) →
      ∃ km' pt' r j, mappagesLoop perm k km pt (v * PGSIZE) pa = .ok (km', pt', r)
        ∧ Moves L km km' pt.tables pt'.tables F ∧ pt'.flat = mapRange pt.flat v j pa perm
        ∧ pt'.tables.card ≤ pt.tables.card + tableCost pt v + 2 * ((v % 512 + k) / 512)
        ∧ ((r = 0 ∧ j = k + 1) ∨ (r = -1 ∧ j ≤ k ∧ km'.freelist = [])) := by
  induction k with
  | zero =>
    intro km pt v pa hmax hfree htr
    obtain ⟨km₁, pt₁, hw, hmv₁, hcard, hflat₁, hturn⟩ :=
      mappages_turn perm pa (by omega) (hfree v (by omega) (by omega)) htr
    rcases hturn with ⟨hfind, hempty⟩ | ⟨e, hfind, he, hset, -⟩
    · refine ⟨km₁, pt₁, -1, 0, ?_, hmv₁, ?_, by omega, .inr ⟨rfl, by omega, hempty⟩⟩
      · unfold mappagesLoop
        simp only [hw, hfind, bind, Except.bind]
      · rw [hflat₁, mapRange_zero]
    refine ⟨km₁, pt₁.setPte (v * PGSIZE) (Pte.map pa perm), 0, 1, ?_, ?_, ?_, ?_,
      .inl ⟨rfl, rfl⟩⟩
    · unfold mappagesLoop
      simp only [hw, hfind, bind, Except.bind, he]
      rfl
    · rw [tables_setPte]
      exact hmv₁
    · rw [hset, mapRange_one]
    · rw [tables_setPte]
      omega
  | succ k ih =>
    intro km pt v pa hmax hfree htr
    obtain ⟨km₁, pt₁, hw, hmv₁, hcard, hflat₁, hturn⟩ :=
      mappages_turn perm pa (by omega) (hfree v (by omega) (by omega)) htr
    rcases hturn with ⟨hfind, hempty⟩ | ⟨e, hfind, he, hset, hsome⟩
    · refine ⟨km₁, pt₁, -1, 0, ?_, hmv₁, ?_, by omega, .inr ⟨rfl, by omega, hempty⟩⟩
      · unfold mappagesLoop
        simp only [hw, hfind, bind, Except.bind]
      · rw [hflat₁, mapRange_zero]
    have hmv₂ : Moves L km km₁ pt.tables
        (pt₁.setPte (v * PGSIZE) (Pte.map pa perm)).tables F := by
      rw [tables_setPte]
      exact hmv₁
    have hfree₂ : ∀ i, v + 1 ≤ i → i ≤ v + 1 + k →
        ((pt₁.setPte (v * PGSIZE) (Pte.map pa perm)).flat i).flags.v = false := by
      intro i h₁ h₂
      rw [hset, update_of_ne (by omega)]
      exact hfree i (by omega) (by omega)
    obtain ⟨km', pt', r, j, hrun, hmv', hflat', hcard', hr⟩ :=
      ih km₁ (pt₁.setPte (v * PGSIZE) (Pte.map pa perm))
        (v + 1) (pa + PGSIZE) (by omega) hfree₂ hmv₂.after
    refine ⟨km', pt', r, j + 1, ?_, hmv₂.trans hmv', ?_, ?_, ?_⟩
    · unfold mappagesLoop
      simp only [hw, hfind, bind, Except.bind, he, va_succ]
      exact hrun
    · rw [hflat', hset, mapRange_succ]
    · -- a page that does not start a table costs nothing
      rw [tables_setPte] at hcard'
      by_cases hv : (v + 1) % 512 = 0
      · have := tableCost_le (pt₁.setPte (v * PGSIZE) (Pte.map pa perm)) (v + 1)
        omega
      · rw [tableCost_succ hsome hv] at hcard'
        omega
    · rcases hr with ⟨h₁, h₂⟩ | ⟨h₁, h₂, h₃⟩
      · exact .inl ⟨h₁, by omega⟩
      · exact .inr ⟨h₁, by omega, h₃⟩

/-- **`mappages` of one page**: it is mapped, or no page was left and the flat
view is as before. -/
theorem mappages_page_spec {va : Nat} (pa : Nat) (perm : Flags) (halign : va % PGSIZE = 0) (hva : va < MAXVA)
    (hfree : (pt.flat (va / PGSIZE)).flags.v = false) (htr : km.Owns L (pt.tables + F)) :
    ∃ km' pt' r, mappages km pt va PGSIZE pa perm = .ok (km', pt', r)
      ∧ Moves L km km' pt.tables pt'.tables F ∧ pt'.tables.card ≤ pt.tables.card + 2
      ∧ ((r = 0 ∧ pt'.flat = update pt.flat (va / PGSIZE) (Pte.map pa perm))
        ∨ (r = -1 ∧ pt'.flat = pt.flat ∧ km'.freelist = [])) := by
  have hk : u64 (PGROUNDDOWN (u64 (va + PGSIZE - 1)) + 2 ^ 64 - PGROUNDDOWN va) / PGSIZE = 0 := by
    simp only [PGROUNDDOWN, u64, PGSIZE, MAXVA] at *
    omega
  have hrun : mappages km pt va PGSIZE pa perm
      = mappagesLoop perm 0 km pt (va / PGSIZE * PGSIZE) pa := by
    have h0 : PGSIZE ≠ 0 := by simp only [PGSIZE]; omega
    simp only [mappages, h0, if_false, hk]
    rfl
  obtain ⟨km', pt', r, j, hloop, hmv, hflat, hcard, hr⟩ :=
    mappagesLoop_spec (L := L) (F := F) perm 0 km pt (va / PGSIZE) pa
      (by simp only [MAXVPN, PGSIZE, MAXVA] at *; omega)
      (fun i h₁ h₂ => by
        have : i = va / PGSIZE := by omega
        rw [this]; exact hfree) htr
  have hcost := tableCost_le pt (va / PGSIZE)
  refine ⟨km', pt', r, hrun.trans hloop, hmv, by omega, ?_⟩
  rcases hr with ⟨h₁, h₂⟩ | ⟨h₁, h₂, h₃⟩
  · left
    refine ⟨h₁, ?_⟩
    rw [hflat, h₂, Nat.zero_add, mapRange_one]
  · right
    refine ⟨h₁, ?_, h₃⟩
    have hj : j = 0 := by omega
    rw [hflat, hj, mapRange_zero]

/-! ## §5. `uvmunmap`. -/

/-- A valid entry that also has one of R, W and X: what `uvmunmap` accepts. -/
def Pte.mapped (e : Pte) : Prop := e.flags.v = true ∧ e.isLeaf = true

theorem Pte.mapped.ne_table {e : Pte} (h : e.mapped) : e.flags ≠ PTE_V := by
  intro hc
  have hl := h.2
  simp [Pte.isLeaf, hc, PTE_V, Flags.none] at hl

/-- **The loop of `uvmunmap`** clears a mapped range without a panic.  With
`do_free` it gives back one reference to each frame of the range. -/
theorem uvmunmapLoop_spec (do_free : Bool) (n : Nat) :
    ∀ (km : Kmem) (pt : Pagetable) (v : Nat), v + n ≤ MAXVPN →
      (∀ i, v ≤ i → i < v + n → (pt.flat i).mapped) →
      km.Owns L (pt.tables + (if do_free then frames pt.flat v n else 0) + F) →
      ∃ km' pt', uvmunmapLoop L do_free n km pt (v * PGSIZE) = .ok (km', pt')
        ∧ Moves L km km' (pt.tables + if do_free then frames pt.flat v n else 0) pt'.tables F
        ∧ pt'.tables = pt.tables ∧ pt'.flat = clearRange pt.flat v n := by
  induction n with
  | zero =>
    intro km pt v _ _ htr
    refine ⟨km, pt, rfl, (Moves.refl htr).of_eq rfl (by simp) rfl, rfl, ?_⟩
    funext i
    have hi : ¬ (v ≤ i ∧ i < v + 0) := by omega
    simp only [clearRange, hi, if_false]
  | succ n ih =>
    intro km pt v hmax hmap htr
    have hva : v * PGSIZE < MAXVA := va_lt (by omega)
    have hdiv : v * PGSIZE / PGSIZE = v := va_div v
    have hv : (pt.flat v).mapped := hmap v (by omega) (by omega)
    have hfind : pt.find (v * PGSIZE) = some (pt.flat v) := by
      have h := find_of_flat pt hva (by rw [hdiv]; exact hv.1)
      rwa [hdiv] at h
    have hset : (pt.setPte (v * PGSIZE) Pte.zero).flat = update pt.flat v Pte.zero := by
      rw [flat_setPte _ hva (by rw [hfind]; rfl), hdiv]
    have hrest : frames (pt.setPte (v * PGSIZE) Pte.zero).flat (v + 1) n
        = frames pt.flat (v + 1) n := by
      apply frames_congr
      intro i h₁ h₂
      rw [hset, update_of_ne (by omega)]
    -- the frame of page `v`, if it is to be freed
    obtain ⟨km₁, hk, hmv₁⟩ : ∃ km₁,
        (if do_free then kfree L km (pt.flat v).pa else .ok km) = .ok km₁
        ∧ Moves L km km₁ (pt.tables + if do_free then frames pt.flat v (n + 1) else 0)
            (pt.tables + if do_free then frames pt.flat (v + 1) n else 0) F := by
      cases do_free with
      | false => exact ⟨km, rfl, Moves.refl htr⟩
      | true =>
        have htr' : km.Owns L ({(pt.flat v).ref}
            + (pt.tables + frames pt.flat (v + 1) n + F)) := by
          refine htr.of_eq ?_
          simp only [if_true, frames_succ]
          abel
        obtain ⟨km₁, hk, hmv⟩ := kfree_spec htr'
        rw [Pte.ref_cell] at hk
        refine ⟨km₁, hk, hmv.frame.of_eq ?_ ?_ rfl⟩
        · simp only [if_true, frames_succ]
          abel
        · simp only [if_true]
          abel
    have hmap₁ : ∀ i, v + 1 ≤ i → i < v + 1 + n →
        ((pt.setPte (v * PGSIZE) Pte.zero).flat i).mapped := by
      intro i h₁ h₂
      rw [hset, update_of_ne (by omega)]
      exact hmap i (by omega) (by omega)
    obtain ⟨km', pt', hrun, hmv', htab, hflat⟩ :=
      ih km₁ (pt.setPte (v * PGSIZE) Pte.zero) (v + 1)
        (by omega) hmap₁ (by rw [tables_setPte, hrest]; exact hmv₁.after)
    rw [tables_setPte, hrest] at hmv'
    rw [tables_setPte] at htab
    refine ⟨km', pt', ?_, hmv₁.trans hmv', htab, ?_⟩
    · unfold uvmunmapLoop
      simp only [walk_noalloc _ _ hva, hfind, bind, Except.bind, hv.1, hv.ne_table, va_succ,
        Bool.true_eq_false, if_false]
      cases do_free with
      | false =>
        simp only [Bool.false_eq_true, if_false, Except.ok.injEq] at hk
        rw [hk]
        exact hrun
      | true =>
        simp only [if_true] at hk
        simp only [if_true, hk]
        exact hrun
    · rw [hflat, hset, clearRange_succ]

/-- **`uvmunmap(.., 1)`** of a mapped range gives back its frames. -/
theorem uvmunmap_free_spec (hmax : v + n ≤ MAXVPN) (hmap : ∀ i, v ≤ i → i < v + n → (pt.flat i).mapped)
    (htr : km.Owns L (pt.tables + frames pt.flat v n + F)) :
    ∃ km' pt', uvmunmap L km pt (v * PGSIZE) n true = .ok (km', pt')
      ∧ Moves L km km' (pt.tables + frames pt.flat v n) pt'.tables F
      ∧ pt'.tables = pt.tables ∧ pt'.flat = clearRange pt.flat v n := by
  have halign : v * PGSIZE % PGSIZE = 0 := Nat.mul_mod_left v PGSIZE
  obtain ⟨km', pt', hrun, h⟩ := uvmunmapLoop_spec true n km pt v hmax hmap htr
  exact ⟨km', pt', by simpa [uvmunmap, halign] using hrun, h⟩

/-- **`uvmunmap(.., 0)`** of a mapped range only clears it. -/
theorem uvmunmap_keep_spec
    (hmax : v + n ≤ MAXVPN) (hmap : ∀ i, v ≤ i → i < v + n → (pt.flat i).mapped) (htr : km.Owns L (pt.tables + F)) :
    ∃ km' pt', uvmunmap L km pt (v * PGSIZE) n false = .ok (km', pt') ∧ Moves L km km' pt.tables pt'.tables F
      ∧ pt'.tables = pt.tables ∧ pt'.flat = clearRange pt.flat v n := by
  have halign : v * PGSIZE % PGSIZE = 0 := Nat.mul_mod_left v PGSIZE
  obtain ⟨km', pt', hrun, hmv, h⟩ :=
    uvmunmapLoop_spec (L := L) (F := F) false n km pt v hmax hmap (htr.of_eq (by simp))
  exact ⟨km', pt', by simpa [uvmunmap, halign] using hrun, hmv.of_eq (by simp) rfl rfl, h⟩

/-! ## §6. `freewalk`. -/

variable {free : Kmem → β → Result Kmem} {good : β → Prop}

/-- The loop over an interior table gives back the pages of every child. -/
theorem freeEntries_spec
    (hfree : ∀ (km : Kmem) (b : β) (F : Multiset PageRef), good b → km.Owns L (g b + F) →
      ∃ km', free km b = .ok km' ∧ Moves L km km' (g b) 0 F) :
    ∀ (es : List (Option β)) (km : Kmem), (∀ b, some b ∈ es → good b) →
      km.Owns L ((es.map fun o => o.elim 0 g).sum + F) →
      ∃ km', freeEntries free es km = .ok km'
        ∧ Moves L km km' (es.map fun o => o.elim 0 g).sum 0 F
  | [], km, _, htr => ⟨km, rfl, Moves.refl htr⟩
  | none :: es, km, hgood, htr => by
    obtain ⟨km', hrun, hmv⟩ := freeEntries_spec hfree es km
      (fun b hb => hgood b (List.mem_cons_of_mem _ hb)) (htr.of_eq (by simp))
    exact ⟨km', hrun, hmv.of_eq (by simp) rfl rfl⟩
  | some b :: es, km, hgood, htr => by
    have htr₀ : km.Owns L (g b + ((es.map fun o => o.elim 0 g).sum + F)) :=
      htr.of_eq (by simp [add_assoc])
    obtain ⟨km₁, hk, hmv₁⟩ := hfree km b _ (hgood b List.mem_cons_self) htr₀
    have hmv₁' : Moves L km km₁ (((some b :: es).map fun o => o.elim 0 g).sum)
        (es.map fun o => o.elim 0 g).sum F :=
      hmv₁.frame.of_eq (by simp) (by simp) rfl
    obtain ⟨km', hrun, hmv'⟩ := freeEntries_spec hfree es km₁
      (fun b' hb => hgood b' (List.mem_cons_of_mem _ hb)) hmv₁'.after
    refine ⟨km', ?_, hmv₁'.trans hmv'⟩
    simp only [freeEntries, hk]
    exact hrun

theorem scanLeaf_ok : ∀ (es : List Pte), (∀ e ∈ es, e.flags.v = false) → scanLeaf es = .ok ()
  | [], _ => rfl
  | e :: es, h => by
    have he : e.flags.v = false := h e List.mem_cons_self
    simp only [scanLeaf, he, Bool.false_eq_true, if_false]
    exact scanLeaf_ok es fun e' he' => h e' (List.mem_cons_of_mem _ he')

theorem below_eq_sum (g : β → Multiset PageRef) (t : Table (Option β)) :
    t.below g = (((List.finRange 512).map t.entry).map fun o => o.elim 0 g).sum := by
  unfold Table.below
  rw [List.map_map, Fin.sum_univ_def]
  rfl

/-- No valid PTE in a level-0 table. -/
def Leaf.vacant (l : Leaf) : Prop := ∀ i, (l.entry i).flags.v = false

/-- No valid PTE below a level-1 table. -/
def Mid.vacant (m : Mid) : Prop := ∀ i l, m.entry i = some l → l.vacant

theorem freewalk0_spec (km : Kmem) (l : Leaf) (F : Multiset PageRef) (hl : l.vacant)
    (htr : km.Owns L (l.tables + F)) : ∃ km', freewalk0 L km l = .ok km' ∧ Moves L km km' l.tables 0 F := by
  obtain ⟨km', hk, hmv⟩ := kfree_spec (show km.Owns L ({own l.page} + F) from htr)
  refine ⟨km', ?_, hmv⟩
  have hscan : scanLeaf ((List.finRange 512).map l.entry) = .ok () := by
    apply scanLeaf_ok
    intro e he
    obtain ⟨i, -, rfl⟩ := List.mem_map.mp he
    exact hl i
  simp only [freewalk0, hscan, bind, Except.bind]
  exact hk

/-- An interior level of `freewalk`: all children, then the table itself. -/
theorem freewalk_level_spec (hfree : ∀ (km : Kmem) (b : β) (F : Multiset PageRef), good b → km.Owns L (g b + F) →
      ∃ km', free km b = .ok km' ∧ Moves L km km' (g b) 0 F)
    (km : Kmem) (t : Table (Option β)) (hgood : ∀ i b, t.entry i = some b → good b)
    (htr : km.Owns L ({own t.page} + t.below g + F)) : ∃ km', (do
        let km ← freeEntries free ((List.finRange 512).map t.entry) km
        kfree L km t.page) = .ok km' ∧ Moves L km km' ({own t.page} + t.below g) 0 F := by
  have htr₀ : km.Owns L
      ((((List.finRange 512).map t.entry).map fun o => o.elim 0 g).sum + ({own t.page} + F)) := by
    refine htr.of_eq ?_
    rw [← below_eq_sum]
    abel
  obtain ⟨km₁, hrun, hmv₁⟩ := freeEntries_spec hfree _ km
    (fun b hb => by
      obtain ⟨i, -, hi⟩ := List.mem_map.mp hb
      exact hgood i b hi) htr₀
  rw [← below_eq_sum] at hmv₁
  have hmv₁' : Moves L km km₁ ({own t.page} + t.below g) {own t.page} F :=
    hmv₁.frame.of_eq (add_comm _ _) (zero_add _).symm rfl
  obtain ⟨km', hk, hmv'⟩ := kfree_spec hmv₁'.after
  refine ⟨km', ?_, hmv₁'.trans hmv'⟩
  simp only [hrun, bind, Except.bind]
  exact hk

theorem freewalk1_spec (km : Kmem) (m : Mid) (F : Multiset PageRef) (hm : m.vacant) (htr : km.Owns L (m.tables + F)) :
    ∃ km', freewalk1 L km m = .ok km' ∧ Moves L km km' m.tables 0 F :=
  freewalk_level_spec freewalk0_spec km m hm htr

/-- Every leaf position of the tree is shown by the flat view. -/
theorem vacant_of_flat (h : ∀ v, (pt.flat v).flags.v = false) : ∀ i m, pt.entry i = some m → m.vacant := by
  intro i m hm j l hl k
  have hv : (i.val * 512 + j.val) * 512 + k.val < NVPN := by
    simp only [NVPN]
    omega
  have h2 : PX 2 (((i.val * 512 + j.val) * 512 + k.val) * PGSIZE) = i := by
    ext
    simp only [PX, PGSIZE]
    omega
  have h1 : PX 1 (((i.val * 512 + j.val) * 512 + k.val) * PGSIZE) = j := by
    ext
    simp only [PX, PGSIZE]
    omega
  have h0 : PX 0 (((i.val * 512 + j.val) * 512 + k.val) * PGSIZE) = k := by
    ext
    simp only [PX, PGSIZE]
    omega
  have hflat := h ((i.val * 512 + j.val) * 512 + k.val)
  simpa [Pagetable.flat, hv, Pagetable.find, h2, h1, h0, hm, hl] using hflat

/-- **`freewalk`** of a page table without leaves gives back all its tables. -/
theorem freewalk_spec (hvac : ∀ v, (pt.flat v).flags.v = false) (htr : km.Owns L (pt.tables + F)) :
    ∃ km', freewalk L km pt = .ok km' ∧ Moves L km km' pt.tables 0 F :=
  freewalk_level_spec freewalk1_spec km pt (vacant_of_flat hvac) htr

end Specs

end Xv6
