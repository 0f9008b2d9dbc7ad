/-
  Xv6.Lib.RefPool — a reference-counted pool of interchangeable cells.

  The pool is a free list together with one counter per cell.  Its meaning
  is given against a multiset `R` of REFERENCES: every holder of a cell
  contributes one copy of that cell to `R`.  `Tracks U P R` says that the
  counters are exactly the multiplicities of `R` and that the free list is
  exactly the cells of the universe `U` that nobody refers to.

  On top of it references come in two KINDS: `own a` is the only reference
  to `a` there is, `share a` is one of several.  `Owned U P R` adds that
  discipline to `Tracks`, and its rules are all a client needs; it never
  looks at the counters again and only says which references it adds and
  removes.

    * `Owned.alloc` — hands out an `own` reference to an unused cell,
    * `Owned.share` — an `own` reference may be demoted to a `share`,
    * `Owned.incr`  — a `share` may be duplicated,
    * `Owned.decr`  — any reference may be dropped; the last one frees,
    * `Owned.alone` — who owns a cell is alone with it.

  Nothing here mentions pages or a kernel: cells are any type with
  decidable equality.
-/
import Mathlib.Data.Multiset.Count
import Mathlib.Data.Finset.Card
import Mathlib.Data.Multiset.Dedup
import Mathlib.Algebra.Order.Group.Multiset
import Mathlib.Data.List.Nodup
import Mathlib.Algebra.BigOperators.Group.Finset.Basic
import Mathlib.Data.Fintype.Defs
import Mathlib.Tactic.Abel

namespace Xv6.Lib

open Function (update update_of_ne update_self)

variable {α : Type} [DecidableEq α]

/-! ## §1. Counting references. -/

/-- A free list and a counter per cell. -/
structure Pool (α : Type) where
  free : List α
  cnt : α → Int

namespace Pool

/-- Take the head of the free list; refuse if its counter is not zero. -/
def alloc (P : Pool α) : Pool α × Option α :=
  match P.free with
  | [] => (P, none)
  | a :: rest =>
    if P.cnt a ≠ 0 then (P, none)
    else (⟨rest, update P.cnt a 1⟩, some a)

/-- Count one more reference. -/
def incr (P : Pool α) (a : α) : Pool α :=
  ⟨P.free, update P.cnt a (P.cnt a + 1)⟩

/-- Count one reference less, and free the cell when none is left. -/
def decr (P : Pool α) (a : α) : Pool α :=
  ⟨if P.cnt a - 1 = 0 then a :: P.free else P.free,
    update P.cnt a (P.cnt a - 1)⟩

end Pool

/-- The pool's bookkeeping is exact for the multiset `R` of references. -/
structure Tracks (U : Set α) (P : Pool α) (R : Multiset α) : Prop where
  nodup : P.free.Nodup
  mem_free : ∀ a, a ∈ P.free ↔ a ∈ U ∧ a ∉ R
  cnt_eq : ∀ a ∈ U, P.cnt a = R.count a
  sub : ∀ a ∈ R, a ∈ U

namespace Tracks

variable {U : Set α} {P Q : Pool α} {R : Multiset α} {a : α}

variable (h : Tracks U P R)
include h

/-- Only the free list and the counters over `U` matter. -/
theorem congr (hf : Q.free = P.free)
    (hc : ∀ a ∈ U, Q.cnt a = P.cnt a) : Tracks U Q R where
  nodup := by rw [hf]; exact h.nodup
  mem_free := by rw [hf]; exact h.mem_free
  cnt_eq := fun a ha => by rw [hc a ha]; exact h.cnt_eq a ha
  sub := h.sub

theorem cnt_pos (ha : a ∈ R) : 0 < P.cnt a := by
  rw [h.cnt_eq a (h.sub a ha)]
  exact_mod_cast Multiset.count_pos.mpr ha

theorem cnt_zero_iff (ha : a ∈ U) : P.cnt a = 0 ↔ a ∈ P.free := by
  rw [h.cnt_eq a ha, h.mem_free]
  constructor
  · intro h0
    exact ⟨ha, Multiset.count_eq_zero.mp (by exact_mod_cast h0)⟩
  · intro h0
    exact_mod_cast Multiset.count_eq_zero.mpr h0.2

/-- **Allocation** either finds the free list empty or hands out a cell that
no reference points at. -/
theorem alloc : (P.free = [] ∧ P.alloc = (P, none)) ∨
    ∃ a Q, P.alloc = (Q, some a) ∧ P.free = a :: Q.free ∧ a ∈ U ∧ a ∉ R ∧ Tracks U Q (a ::ₘ R) := by
  cases hfree : P.free with
  | nil =>
    left
    exact ⟨rfl, by simp [Pool.alloc, hfree]⟩
  | cons a rest =>
    right
    have hmem : a ∈ P.free := by rw [hfree]; exact List.mem_cons_self
    obtain ⟨haU, haR⟩ := (h.mem_free a).mp hmem
    have hzero : P.cnt a = 0 := (h.cnt_zero_iff haU).mpr hmem
    have hnd : (a :: rest).Nodup := hfree ▸ h.nodup
    obtain ⟨hnot, hndr⟩ := List.nodup_cons.mp hnd
    refine ⟨a, ⟨rest, update P.cnt a 1⟩, ?_, rfl, haU, haR, ?_⟩
    · simp [Pool.alloc, hfree, hzero]
    constructor
    · exact hndr
    · intro b
      have hb := h.mem_free b
      rw [hfree] at hb
      by_cases hba : b = a
      · subst hba
        simp [hnot]
      · simpa [hba] using hb
    · intro b hbU
      by_cases hba : b = a
      · subst hba
        simp [Multiset.count_eq_zero.mpr haR]
      · simp [hba, h.cnt_eq b hbU]
    · intro b hb
      rcases Multiset.mem_cons.mp hb with rfl | hb
      · exact haU
      · exact h.sub b hb

/-- **One more reference** to a cell that already has one. -/
theorem incr (ha : a ∈ R) : Tracks U (P.incr a) (a ::ₘ R) where
  nodup := h.nodup
  mem_free := fun b => by
    have hb := h.mem_free b
    by_cases hba : b = a
    · subst hba
      simp only [Pool.incr, Multiset.mem_cons, true_or, not_true_eq_false, and_false,
        iff_false]
      intro hfree
      exact (hb.mp hfree).2 ha
    · simpa [Pool.incr, hba] using hb
  cnt_eq := fun b hbU => by
    by_cases hba : b = a
    · subst hba
      simp [Pool.incr, h.cnt_eq b hbU]
    · simp [Pool.incr, hba, h.cnt_eq b hbU]
  sub := fun b hb => by
    rcases Multiset.mem_cons.mp hb with rfl | hb
    · exact h.sub b ha
    · exact h.sub b hb

omit h

/-- **One reference less**; the cell is free again when it was the last. -/
theorem decr (h : Tracks U P (a ::ₘ R)) : Tracks U (P.decr a) R := by
  have haU : a ∈ U := h.sub a (Multiset.mem_cons_self a R)
  have hcnt : P.cnt a - 1 = R.count a := by
    rw [h.cnt_eq a haU, Multiset.count_cons_self]
    push_cast
    omega
  have hnotfree : a ∉ P.free := fun hf =>
    ((h.mem_free a).mp hf).2 (Multiset.mem_cons_self a R)
  -- the last reference is dropped exactly when `a` no longer occurs in `R`
  have hlast : P.cnt a - 1 = 0 ↔ a ∉ R := by
    rw [hcnt, ← Multiset.count_eq_zero]
    exact_mod_cast Iff.rfl
  constructor
  · by_cases hz : P.cnt a - 1 = 0
    · simp only [Pool.decr, hz, if_true]
      exact List.nodup_cons.mpr ⟨hnotfree, h.nodup⟩
    · simp only [Pool.decr, hz, if_false]
      exact h.nodup
  · intro b
    have hb := h.mem_free b
    by_cases hba : b = a
    · subst hba
      by_cases hz : P.cnt b - 1 = 0
      · simp only [Pool.decr, hz, if_true, List.mem_cons, true_or, true_iff]
        exact ⟨haU, hlast.mp hz⟩
      · simp only [Pool.decr, hz, if_false, hnotfree, false_iff, not_and, not_not]
        intro _
        by_contra hbR
        exact hz (hlast.mpr hbR)
    · have hb' : b ∈ P.free ↔ b ∈ U ∧ b ∉ R := by simpa [hba] using hb
      by_cases hz : P.cnt a - 1 = 0
      · simpa [Pool.decr, hz, hba] using hb'
      · simpa [Pool.decr, hz] using hb'
  · intro b hbU
    by_cases hba : b = a
    · subst hba
      simp [Pool.decr, hcnt]
    · simp [Pool.decr, hba, h.cnt_eq b hbU]
  · intro b hb
    exact h.sub b (Multiset.mem_cons_of_mem hb)

/-- **A new cell** enters the universe with its first reference. -/
theorem adopt (h : Tracks U P R) (ha : a ∉ U) :
    Tracks (insert a U) ⟨P.free, update P.cnt a 1⟩ (a ::ₘ R) where
  nodup := h.nodup
  mem_free := fun b => by
    have hb := h.mem_free b
    by_cases hba : b = a
    · subst hba
      simp only [Multiset.mem_cons, true_or, not_true_eq_false, and_false, iff_false]
      intro hf
      exact ha (hb.mp hf).1
    · simpa [hba] using hb
  cnt_eq := fun b hbU => by
    by_cases hba : b = a
    · subst hba
      have hbR : b ∉ R := fun hR => ha (h.sub b hR)
      simp [Multiset.count_eq_zero.mpr hbR]
    · have hbU' : b ∈ U := by
        rcases hbU with hb | hb
        · exact absurd hb hba
        · exact hb
      simp [hba, h.cnt_eq b hbU']
  sub := fun b hb => by
    rcases Multiset.mem_cons.mp hb with rfl | hb
    · exact Set.mem_insert _ _
    · exact Set.mem_insert_of_mem _ (h.sub b hb)

/-- An empty universe is tracked by an empty pool. -/
theorem empty (c : α → Int) : Tracks (∅ : Set α) ⟨[], c⟩ (0 : Multiset α) where
  nodup := List.nodup_nil
  mem_free := fun a => by simp
  cnt_eq := fun a ha => absurd ha (Set.notMem_empty a)
  sub := fun a ha => absurd ha (Multiset.notMem_zero a)

end Tracks

/-! ## §2. Owned and shared references. -/

/-- A reference to a cell: the only one there is, or one of several. -/
inductive Ref (α : Type) where
  | own (a : α)
  | share (a : α)
  deriving DecidableEq

/-- The cell a reference points at. -/
def Ref.cell : Ref α → α
  | .own a => a
  | .share a => a

@[simp] theorem Ref.cell_own {β : Type} (a : β) : (Ref.own a).cell = a := rfl
@[simp] theorem Ref.cell_share {β : Type} (a : β) : (Ref.share a).cell = a := rfl

/-- The pool's bookkeeping is exact for `R`, and an owner is the only holder. -/
structure Owned (U : Set α) (P : Pool α) (R : Multiset (Ref α)) : Prop where
  tracks : Tracks U P (R.map Ref.cell)
  excl : ∀ a, Ref.own a ∈ R → (R.map Ref.cell).count a = 1

namespace Owned

variable {U : Set α} {P Q : Pool α} {R : Multiset (Ref α)} {a : α} {r : Ref α}

theorem congr (h : Owned U P R) (hf : Q.free = P.free) (hc : ∀ a ∈ U, Q.cnt a = P.cnt a) : Owned U Q R :=
  ⟨h.tracks.congr hf hc, h.excl⟩

theorem mem (h : Owned U P R) (hr : r ∈ R) : r.cell ∈ U :=
  h.tracks.sub _ (Multiset.mem_map_of_mem _ hr)

theorem cnt_pos (h : Owned U P R) (hr : r ∈ R) : 0 < P.cnt r.cell :=
  h.tracks.cnt_pos (Multiset.mem_map_of_mem _ hr)

/-- **An owner is alone with its cell.** -/
theorem alone (h : Owned U P (.own a ::ₘ R)) : a ∉ R.map Ref.cell := by
  have hone := h.excl a (Multiset.mem_cons_self _ _)
  rw [Multiset.map_cons, Ref.cell_own, Multiset.count_cons_self] at hone
  rw [← Multiset.count_eq_zero]
  omega

/-- Ownership in a smaller multiset of references. -/
theorem excl_of_le {S : Multiset (Ref α)} (hle : S ≤ R)
    (hexcl : ∀ a, Ref.own a ∈ R → (R.map Ref.cell).count a = 1) (ha : Ref.own a ∈ S) : (S.map Ref.cell).count a = 1 := by
  have hR := hexcl a (Multiset.mem_of_le hle ha)
  have hle' := Multiset.count_le_of_le a (Multiset.map_le_map (f := Ref.cell) hle)
  have hpos : 0 < (S.map Ref.cell).count a :=
    Multiset.count_pos.mpr (Multiset.mem_map_of_mem Ref.cell ha)
  omega

/-- **Allocation** hands out the only reference to a cell, or fails because
the free list is empty. -/
theorem alloc (h : Owned U P R) : (P.free = [] ∧ P.alloc = (P, none)) ∨
    ∃ a Q, P.alloc = (Q, some a) ∧ P.free = a :: Q.free ∧ a ∈ U ∧ a ∉ R.map Ref.cell ∧ Owned U Q (.own a ::ₘ R) := by
  rcases h.tracks.alloc with hnone | ⟨a, Q, hQ, hfree, haU, haR, htr⟩
  · exact .inl hnone
  refine .inr ⟨a, Q, hQ, hfree, haU, haR, by rw [Multiset.map_cons]; exact htr, ?_⟩
  intro b hb
  have hzero := Multiset.count_eq_zero.mpr haR
  rw [Multiset.map_cons, Ref.cell_own]
  rcases Multiset.mem_cons.mp hb with hba | hbR
  · injection hba with hba
    rw [hba, Multiset.count_cons_self, hzero]
  · have hne : b ≠ a := fun he =>
      haR (he ▸ Multiset.mem_map_of_mem Ref.cell hbR)
    rw [Multiset.count_cons_of_ne hne]
    exact h.excl b hbR

/-- **Demotion**: any reference may be turned into a shared one. -/
theorem share (h : Owned U P (r ::ₘ R)) : Owned U P (.share r.cell ::ₘ R) where
  tracks := by
    have htr := h.tracks
    rw [Multiset.map_cons] at htr ⊢
    exact htr
  excl := fun b hb => by
    rcases Multiset.mem_cons.mp hb with hba | hbR
    · exact absurd hba (by simp)
    · have hone := h.excl b (Multiset.mem_cons_of_mem hbR)
      rw [Multiset.map_cons] at hone ⊢
      exact hone

/-- **Duplication** of a shared reference. -/
theorem incr (h : Owned U P (.share a ::ₘ R)) :
    Owned U (P.incr a) (.share a ::ₘ .share a ::ₘ R) where
  tracks := by
    have htr := h.tracks
    have ha : a ∈ (Ref.share a ::ₘ R).map Ref.cell := by simp
    rw [Multiset.map_cons]
    exact htr.incr ha
  excl := fun b hb => by
    have hbR : Ref.own b ∈ Ref.share a ::ₘ R := by simpa using hb
    have hone := h.excl b hbR
    -- an owned cell is not the shared one: that would count two references
    have hne : b ≠ a := by
      rintro rfl
      have hmem : Ref.own b ∈ R := by simpa using hbR
      have hpos := Multiset.count_pos.mpr (Multiset.mem_map_of_mem Ref.cell hmem)
      rw [Multiset.map_cons, Ref.cell_share, Multiset.count_cons_self] at hone
      simp only [Ref.cell_own] at hpos
      omega
    rw [Multiset.map_cons, Ref.cell_share, Multiset.count_cons_of_ne hne]
    exact hone

/-- **Dropping a reference**; the last one frees the cell. -/
theorem decr (h : Owned U P (r ::ₘ R)) : Owned U (P.decr r.cell) R where
  tracks := by
    have htr := h.tracks
    rw [Multiset.map_cons] at htr
    exact htr.decr
  excl := fun _ hb => excl_of_le (Multiset.le_cons_self R r) h.excl hb

theorem adopt (h : Owned U P 0) (ha : a ∉ U) :
    Owned (insert a U) ⟨P.free, update P.cnt a 1⟩ {.own a} where
  tracks := h.tracks.adopt ha
  excl := fun b hb => by
    rw [Multiset.mem_singleton] at hb
    injection hb with hb
    simp [hb]

theorem empty (c : α → Int) : Owned (∅ : Set α) ⟨[], c⟩ (0 : Multiset (Ref α)) :=
  ⟨Tracks.empty c, fun _ hb => absurd hb (Multiset.notMem_zero _)⟩

/-- A full pool: when the free list is empty every cell of a finite universe
is referred to, so there are at least as many references as cells. -/
theorem card_le_of_free_nil (V : Finset α) (h : Owned (V : Set α) P R) (hfree : P.free = []) : V.card ≤ R.card := by
  have hsub : V ⊆ (R.map Ref.cell).toFinset := by
    intro b hb
    rw [Multiset.mem_toFinset]
    by_contra hbR
    have : b ∈ P.free := (h.tracks.mem_free b).mpr ⟨hb, hbR⟩
    rw [hfree] at this
    exact absurd this (by simp)
  calc V.card ≤ (R.map Ref.cell).toFinset.card := Finset.card_le_card hsub
    _ ≤ (R.map Ref.cell).card := Multiset.toFinset_card_le _
    _ = R.card := Multiset.card_map _ _

/-- Distinct references are bounded by the size of the universe. -/
theorem card_le_of_nodup (V : Finset α) (h : Owned (V : Set α) P R)
    {S : Multiset (Ref α)} (hS : S ≤ R) (hnd : (S.map Ref.cell).Nodup) : S.card ≤ V.card := by
  have hsub : (S.map Ref.cell).toFinset ⊆ V := by
    intro b hb
    obtain ⟨r, hr, rfl⟩ := Multiset.mem_map.mp (Multiset.mem_toFinset.mp hb)
    exact h.mem (Multiset.mem_of_le hS hr)
  calc S.card = (S.map Ref.cell).card := (Multiset.card_map _ _).symm
    _ = (S.map Ref.cell).toFinset.card := (Multiset.toFinset_card_of_nodup hnd).symm
    _ ≤ V.card := Finset.card_le_card hsub

end Owned

omit [DecidableEq α] in
/-- References are summed over holders: when holder `j` changes from `f j` to
`x`, the references of `f j` are exchanged for those of `x`. -/
theorem sum_update {ι β : Type} [Fintype ι] [DecidableEq ι] (g : β → Multiset α) (f : ι → β) (j : ι) (x : β) :
    (∑ i, g (update f j x i)) + g (f j) = (∑ i, g (f i)) + g x := by
  have hrest : ∑ i ∈ Finset.univ.erase j, g (update f j x i)
      = ∑ i ∈ Finset.univ.erase j, g (f i) := by
    apply Finset.sum_congr rfl
    intro i hi
    rw [update_of_ne (Finset.ne_of_mem_erase hi)]
  rw [← Finset.add_sum_erase _ _ (Finset.mem_univ j), hrest, update_self,
    ← Finset.add_sum_erase _ (fun i => g (f i)) (Finset.mem_univ j)]
  abel

end Xv6.Lib
