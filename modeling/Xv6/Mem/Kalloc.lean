/-
  Xv6.Mem.Kalloc — the physical page allocator with reference counts
  (`kernel/kalloc.c`).

  `Kmem` is `kmem.freelist` (head first), the array `num_ref_to_page`
  indexed by page number, and the contents of physical pages.  The links of
  the free list live in the free pages themselves in the source; here the
  list is a value of its own and a free page holds only the junk written by
  `kfree_original`.

  The specification is an instance of the reference pool: `Kmem.Owns L km R`
  says that the multiset `R` lists every reference to every page, once per
  holder, and which of them are the only one to their page.  What a piece of
  kernel code does to the allocator is then a statement `Moves L km km' A A' F`:
  it exchanges its own references `A` for `A'` and leaves everybody else's
  references `F` alone, their pages' contents included.  `Moves` composes
  (`Moves.trans`) and frames (`Moves.frame`), so larger functions are
  specified from smaller ones.
-/
import Xv6.Param
import Xv6.Lib.RefPool

namespace Xv6

open Function (update update_of_ne)
open Multiset (singleton_add mem_add)

/-! ## §1. The allocator. -/

/-- The contents of one page, by byte offset. -/
abbrev Page := Nat → UInt8

/-- Physical memory and the state of the allocator. -/
structure Kmem where
  /-- `kmem.freelist`: physical addresses of the free pages -/
  freelist : List Nat
  /-- `int num_ref_to_page[PHYSTOP/PGSIZE]` -/
  num_ref_to_page : Nat → Int
  /-- physical memory, by the address of the page -/
  mem : Nat → Page

/-- `memset(pa, c, PGSIZE)` -/
def Kmem.memset (km : Kmem) (pa : Nat) (c : UInt8) : Kmem :=
  { km with mem := update km.mem pa fun _ => c }

/-- Copy bytes into page `pa` from offset `off` on (a `memmove` or a store
that stays inside the page). -/
def Kmem.write (km : Kmem) (pa off : Nat) (bs : List UInt8) : Kmem :=
  { km with mem := update km.mem pa fun o =>
      if off ≤ o ∧ o < off + bs.length then bs.getD (o - off) 0 else km.mem pa o }

/-- `n` bytes of page `pa` from offset `off` on. -/
def Kmem.read (km : Kmem) (pa off n : Nat) : List UInt8 :=
  (List.range n).map fun i => km.mem pa (off + i)

section Allocator

variable (L : Layout)

/-- `kfree_original(pa)` -/
def kfree_original (km : Kmem) (pa : Nat) : Result Kmem :=
  if ¬ L.inRange pa then .error (.panic "kfree")
  else .ok { km.memset pa 1 with freelist := pa :: km.freelist }

/-- `kalloc()`; the null pointer is `none`. -/
def kalloc (km : Kmem) : Kmem × Option Nat :=
  match km.freelist with
  | [] => (km, none)
  | r :: next =>
    if km.num_ref_to_page (r / PGSIZE) ≠ 0 then (km, none)
    else
      let km' : Kmem :=
        { km with
          num_ref_to_page := update km.num_ref_to_page (r / PGSIZE) 1,
          freelist := next }
      (km'.memset r 5, some r)

/-- `increase_num_ref(pa)` -/
def increase_num_ref (km : Kmem) (pa : Nat) : Result Kmem :=
  if ¬ L.inRange pa then .error (.panic "increase_num_ref")
  else if km.num_ref_to_page (pa / PGSIZE) = INT_MAX then .error .overflow
  else
    let n := km.num_ref_to_page (pa / PGSIZE) + 1
    .ok { km with
      num_ref_to_page := update km.num_ref_to_page (pa / PGSIZE) n }

/-- `kfree(pa)` -/
def kfree (km : Kmem) (pa : Nat) : Result Kmem :=
  if ¬ L.inRange pa then .error (.panic "decrease_num_ref")
  else if km.num_ref_to_page (pa / PGSIZE) ≤ 0 then
    .error (.panic "decrease_num_ref: num_ref_to_page[pa/PGSIZE] == 0")
  else
    let n := km.num_ref_to_page (pa / PGSIZE) - 1
    let km' : Kmem :=
      { km with num_ref_to_page := update km.num_ref_to_page (pa / PGSIZE) n }
    if n = 0 then kfree_original L km' pa else .ok km'

/-- The loop of `freerange`: `n` pages from `p` on. -/
def freerange : Nat → Nat → Kmem → Result Kmem
  | 0, _, km => .ok km
  | n + 1, p, km =>
    (kfree L { km with
        num_ref_to_page := update km.num_ref_to_page (p / PGSIZE) 1 } p).bind
      (freerange n (p + PGSIZE))

/-- `kinit()`: the counters are static data, zero at the start, and the RAM
holds anything. -/
def kinit (ram : Nat → Page) : Result Kmem :=
  freerange L ((PHYSTOP - PGROUNDUP L.kend) / PGSIZE) (PGROUNDUP L.kend)
    ⟨[], fun _ => 0, ram⟩

end Allocator

/-! ## §2. The allocator is a reference pool. -/

/-- The pool of pages, a page being named by its address. -/
def Kmem.pool (km : Kmem) : Lib.Pool Nat :=
  ⟨km.freelist, fun pa => km.num_ref_to_page (pa / PGSIZE)⟩

/-- A reference to a page. -/
abbrev PageRef := Lib.Ref Nat

open Lib.Ref (own share cell)

/-- `R` lists every reference to every page. -/
def Kmem.Owns (L : Layout) (km : Kmem) (R : Multiset PageRef) : Prop :=
  Lib.Owned (L.pages : Set Nat) km.pool R

variable {S R : Multiset PageRef}

/-- Rearranging the list of references. -/
theorem Kmem.Owns.of_eq {L : Layout} {km : Kmem} (h : km.Owns L R) (heq : S = R) : km.Owns L S := heq ▸ h

/-- The pages of `R` have the same contents in both states. -/
def SameOn (R : Multiset PageRef) (km km' : Kmem) : Prop :=
  ∀ r ∈ R, km'.mem r.cell = km.mem r.cell

theorem SameOn.refl (R : Multiset PageRef) (km : Kmem) : SameOn R km km := fun _ _ => rfl

theorem SameOn.trans {k₁ k₂ k₃ : Kmem} (h₁ : SameOn R k₁ k₂)
    (h₂ : SameOn R k₂ k₃) : SameOn R k₁ k₃ :=
  fun r hr => (h₂ r hr).trans (h₁ r hr)

theorem SameOn.sub {k₁ k₂ : Kmem} (h : SameOn S k₁ k₂) (hsub : R ⊆ S) : SameOn R k₁ k₂ := fun r hr => h r (hsub hr)

/-- **A transfer of references.**  The code exchanges its references `A` for
`A'`.  The references `F` of all other holders stay, with the contents of
their pages. -/
structure Moves (L : Layout) (km km' : Kmem) (A A' F : Multiset PageRef) : Prop where
  before : km.Owns L (A + F)
  after : km'.Owns L (A' + F)
  same : SameOn F km km'

namespace Moves

variable {L : Layout} {km km₁ km₂ km' : Kmem} {A A' B C F : Multiset PageRef}

theorem refl (h : km.Owns L (A + F)) : Moves L km km A A F :=
  ⟨h, h, SameOn.refl _ _⟩

/-- Sequential composition. -/
theorem trans (h₁ : Moves L km km₁ A B F) (h₂ : Moves L km₁ km₂ B C F) : Moves L km km₂ A C F :=
  ⟨h₁.before, h₂.after, h₁.same.trans h₂.same⟩

/-- The frame rule: part `B` of the frame joins the code's own references. -/
theorem frame (h : Moves L km km' A A' (B + F)) : Moves L km km' (A + B) (A' + B) F where
  before := h.before.of_eq (by abel)
  after := h.after.of_eq (by abel)
  same := h.same.sub (by intro q hq; simp [hq])

/-- Sequential composition of two moves with frames of their own. -/
theorem seq {A₁ B₁ F₁ A₂ B₂ F₂ : Multiset PageRef} (h₁ : Moves L km km₁ A₁ B₁ F₁)
    (h₂ : Moves L km₁ km₂ A₂ B₂ F₂) (G₁ G₂ : Multiset PageRef) (hF₁ : F₁ = G₁ + F)
    (hF₂ : F₂ = G₂ + F) (hmid : B₁ + G₁ = A₂ + G₂) (hA : A = A₁ + G₁) (hC : C = B₂ + G₂) : Moves L km km₂ A C F := by
  subst hF₁ hF₂ hA hC
  exact h₁.frame.trans (hmid ▸ h₂.frame)

/-- Rearranging the lists of references. -/
theorem of_eq {A₀ A₀' F₀ : Multiset PageRef} (h : Moves L km km' A A' F) (hA : A₀ = A)
    (hA' : A₀' = A') (hF : F₀ = F) : Moves L km km' A₀ A₀' F₀ := by
  subst hA hA' hF
  exact h

end Moves

section Specs

variable {L : Layout} {km : Kmem} {R : Multiset PageRef} {pa : Nat}

/-- Two pages of the allocator share a counter only if they are the same. -/
theorem page_index_inj {a b : Nat} (ha : a % PGSIZE = 0) (hb : b % PGSIZE = 0) : a / PGSIZE = b / PGSIZE ↔ a = b := by
  simp only [PGSIZE] at *
  omega

variable {r : PageRef}

theorem Kmem.Owns.mem_pages (h : km.Owns L R) (hr : r ∈ R) : r.cell ∈ L.pages := Finset.mem_coe.mp (h.mem hr)

/-- The counter of a page is the number of references to it. -/
theorem Kmem.Owns.count (h : km.Owns L R) (hpa : pa ∈ L.pages) :
    km.num_ref_to_page (pa / PGSIZE) = (R.map cell).count pa :=
  h.tracks.cnt_eq pa (Finset.mem_coe.mpr hpa)

/-- Who owns a page is alone with it. -/
theorem Kmem.Owns.alone (h : km.Owns L ({own pa} + R)) : pa ∉ R.map cell := by
  rw [Kmem.Owns, singleton_add] at h
  exact h.alone

/-- Any reference may be demoted to a shared one. -/
theorem Kmem.Owns.share (h : km.Owns L ({r} + R)) : km.Owns L ({Lib.Ref.share r.cell} + R) := by
  rw [Kmem.Owns, singleton_add] at h ⊢
  exact h.share

/-- When no page is left there are at least as many references as pages. -/
theorem Kmem.Owns.exhausted (h : km.Owns L R) (hfree : km.freelist = []) : L.pages.card ≤ R.card := Lib.Owned.card_le_of_free_nil L.pages h hfree

/-- Updating the counter of one page is updating the pool at that page. -/
theorem pool_update {k : Kmem} {n : Int} {U : Set Nat} (hU : ∀ a ∈ U, a % PGSIZE = 0)
    (hpa : pa % PGSIZE = 0) :
    ∀ qa ∈ U,
      ({ k with num_ref_to_page :=
          update k.num_ref_to_page (pa / PGSIZE) n } : Kmem).pool.cnt qa
        = update k.pool.cnt pa n qa := by
  intro qa hqa
  by_cases hq' : qa = pa
  · subst hq'
    simp [Kmem.pool]
  · have hne : qa / PGSIZE ≠ pa / PGSIZE :=
      fun h => hq' ((page_index_inj (hU qa hqa) hpa).mp h)
    simp [Kmem.pool, hq', hne]

theorem Layout.pages_aligned (L : Layout) : ∀ a ∈ (L.pages : Set Nat), a % PGSIZE = 0 :=
  fun a ha => ((L.mem_pages a).mp (Finset.mem_coe.mp ha)).1

variable {km' : Kmem}

/-- The contents of the referenced pages stay when one that is not among them
is overwritten. -/
theorem SameOn.update {page : Page} (h : pa ∉ R.map cell)
    (hmem : km'.mem = update km.mem pa page) : SameOn R km km' := by
  intro r hr
  have hne : r.cell ≠ pa := fun he => h (he ▸ Multiset.mem_map_of_mem _ hr)
  rw [hmem, update_of_ne hne]

/-- **`kalloc`** returns null exactly when the free list is empty, and
otherwise the only reference to a page. -/
theorem kalloc_spec (h : km.Owns L R) : (kalloc km = (km, none) ∧ km.freelist = []) ∨
    ∃ pa km', kalloc km = (km', some pa) ∧ Moves L km km' 0 {own pa} R ∧ km'.mem = update km.mem pa (fun _ => 5) := by
  rcases Lib.Owned.alloc h with ⟨hfree, _⟩ | ⟨pa, Q, halloc, hfree, hpaU, hpaR, htr⟩
  · left
    have hfl : km.freelist = [] := hfree
    exact ⟨by simp [kalloc, hfl], hfl⟩
  right
  have hfl : km.freelist = pa :: Q.free := hfree
  have hcnt : km.num_ref_to_page (pa / PGSIZE) = 0 :=
    (h.tracks.cnt_zero_iff hpaU).mpr (by rw [hfree]; exact List.mem_cons_self)
  have hQ : Q = ⟨Q.free, update km.pool.cnt pa 1⟩ := by
    have hc : km.pool.cnt pa = 0 := hcnt
    simp only [Lib.Pool.alloc, hfree, hc, ne_eq, not_true_eq_false, if_false,
      Prod.mk.injEq] at halloc
    rw [← halloc.1]
  have hpa := ((L.mem_pages pa).mp (Finset.mem_coe.mp hpaU)).1
  refine ⟨pa, _, by simp [kalloc, hfl, hcnt]; rfl,
    ⟨h.of_eq (zero_add R), ?_, SameOn.update hpaR rfl⟩, rfl⟩
  refine Lib.Owned.congr htr rfl ?_
  intro qa hqa
  rw [hQ]
  exact pool_update (k := km) L.pages_aligned hpa qa hqa

/-- When it succeeds, `increase_num_ref` turns a reference into two shared ones. -/
theorem increase_num_ref_moves (h : km.Owns L ({r} + R)) (hrun : increase_num_ref L km r.cell = .ok km') :
    Moves L km km' {r} ({share r.cell} + {share r.cell}) R ∧ km'.mem = km.mem := by
  have hr : r ∈ ({r} + R : Multiset PageRef) := by simp
  unfold increase_num_ref at hrun
  split at hrun
  · cases hrun
  split at hrun
  · cases hrun
  cases hrun
  refine ⟨⟨h, ?_, fun _ _ => rfl⟩, rfl⟩
  have hsh := h.share
  rw [Kmem.Owns, add_assoc, singleton_add, singleton_add]
  exact Lib.Owned.congr hsh.incr rfl
    (pool_update L.pages_aligned (L.pages_aligned _ (h.mem hr)))

/-- `kfree` over any universe of pages: one reference less, the page freed when
it was the last, the contents of every page still referred to unchanged. -/
theorem kfree_owned {U : Set Nat} (hU : ∀ a ∈ U, a % PGSIZE = 0)
    (hin : L.inRange r.cell = true) (h : Lib.Owned U km.pool (r ::ₘ R)) :
    ∃ km', kfree L km r.cell = .ok km' ∧ Lib.Owned U km'.pool R ∧ SameOn R km km' := by
  have hr : r ∈ r ::ₘ R := Multiset.mem_cons_self r R
  have halign : r.cell % PGSIZE = 0 := hU _ (h.mem hr)
  have hcnt : 0 < km.num_ref_to_page (r.cell / PGSIZE) := Lib.Owned.cnt_pos h hr
  have hpos : ¬ km.num_ref_to_page (r.cell / PGSIZE) ≤ 0 := by omega
  by_cases hlast : km.num_ref_to_page (r.cell / PGSIZE) - 1 = 0
  · -- the last reference: the page is filled with junk and goes on the free list
    have hnot : r.cell ∉ R.map cell := by
      intro hR
      have hc : km.num_ref_to_page (r.cell / PGSIZE)
          = ((r ::ₘ R).map cell).count r.cell := h.tracks.cnt_eq _ (h.mem hr)
      have hR' := Multiset.count_pos.mpr hR
      rw [Multiset.map_cons, Multiset.count_cons_self] at hc
      push_cast at hc
      omega
    have hlast' : km.pool.cnt r.cell - 1 = 0 := hlast
    refine ⟨_, by simp [kfree, kfree_original, hin, hpos, hlast]; rfl, ?_,
      SameOn.update hnot rfl⟩
    refine Lib.Owned.congr h.decr ?_ ?_
    · simp only [Lib.Pool.decr, hlast', if_true]
      rfl
    · intro qa hqa
      simp only [Lib.Pool.decr, hlast']
      exact pool_update (k := km) hU halign qa hqa
  · have hrun : kfree L km r.cell = .ok { km with
        num_ref_to_page := update km.num_ref_to_page (r.cell / PGSIZE)
          (km.num_ref_to_page (r.cell / PGSIZE) - 1) } := by
      simp [kfree, hin, hpos, hlast]
    have hlast' : ¬ km.pool.cnt r.cell - 1 = 0 := hlast
    refine ⟨_, hrun, ?_, fun _ _ => rfl⟩
    refine Lib.Owned.congr h.decr ?_ (pool_update hU halign)
    simp only [Lib.Pool.decr, hlast', if_false]
    rfl

/-- **`kfree`** gives one reference back.  It never panics on a page that is
referred to. -/
theorem kfree_spec (h : km.Owns L ({r} + R)) : ∃ km', kfree L km r.cell = .ok km' ∧ Moves L km km' {r} 0 R := by
  have hin := Layout.inRange_of_mem (h.mem_pages (r := r) (by simp))
  obtain ⟨km', hk, htr, hsame⟩ := kfree_owned (r := r) (R := R) L.pages_aligned hin
    (by rw [← singleton_add]; exact h)
  exact ⟨km', hk, h, Kmem.Owns.of_eq htr (zero_add R), hsame⟩

variable {A A' F : Multiset PageRef}

/-- Overwriting a page of one's own. -/
theorem Moves.overwrite {page : Page}
    (h : Moves L km km' A A' F) (hpa : own pa ∈ A') :
    Moves L km { km' with mem := update km'.mem pa page } A A' F where
  before := h.before
  after := h.after
  same := by
    obtain ⟨B, hB⟩ := Multiset.exists_cons_of_mem hpa
    have halone : pa ∉ (B + F).map cell :=
      Kmem.Owns.alone (h.after.of_eq (by rw [hB, singleton_add, Multiset.cons_add]))
    refine h.same.trans (SameOn.update (fun hF => halone ?_) rfl)
    rw [Multiset.map_add, mem_add]
    exact .inr hF

theorem Moves.memset {c : UInt8}
    (h : Moves L km km' A A' F) (hpa : own pa ∈ A') : Moves L km (km'.memset pa c) A A' F :=
  h.overwrite hpa

theorem Moves.write {off : Nat} {bs : List UInt8}
    (h : Moves L km km' A A' F) (hpa : own pa ∈ A') : Moves L km (km'.write pa off bs) A A' F :=
  h.overwrite hpa

/-! ## §3. Initialisation. -/

/-- Each turn of `freerange` adopts one page and frees it at once. -/
theorem freerange_spec :
    ∀ (n p : Nat) (km : Kmem) (U : Set Nat), Lib.Owned U km.pool 0 →
      (∀ a ∈ U, a % PGSIZE = 0 ∧ a < p) → p % PGSIZE = 0 → L.kend ≤ p →
      p + n * PGSIZE ≤ PHYSTOP →
      ∃ km', freerange L n p km = .ok km'
        ∧ Lib.Owned (U ∪ {a | a % PGSIZE = 0 ∧ p ≤ a ∧ a < p + n * PGSIZE}) km'.pool 0
  | 0, p, km, U, h, _, _, _, _ => by
    refine ⟨km, rfl, ?_⟩
    have hempty : {a | a % PGSIZE = 0 ∧ p ≤ a ∧ a < p + 0 * PGSIZE} = (∅ : Set Nat) := by
      ext a
      simp only [Set.mem_ofPred_eq, Set.mem_empty_iff_false, iff_false]
      omega
    rw [hempty, Set.union_empty]
    exact h
  | n + 1, p, km, U, h, hU, hp, hend, hstop => by
    have hpU : p ∉ U := fun hm => absurd (hU p hm).2 (Nat.lt_irrefl p)
    have hin : L.inRange p = true := by
      apply Layout.inRange_of_mem
      rw [L.mem_pages]
      simp only [PGSIZE] at *
      omega
    have hU' : ∀ a ∈ insert p U, a % PGSIZE = 0 := by
      intro a ha
      rcases ha with rfl | ha
      · exact hp
      · exact (hU a ha).1
    have hadopt : Lib.Owned (insert p U)
        (Kmem.pool { km with
          num_ref_to_page := update km.num_ref_to_page (p / PGSIZE) 1 })
        (own p ::ₘ 0) :=
      Lib.Owned.congr (h.adopt hpU) rfl (pool_update (k := km) hU' hp)
    obtain ⟨km₁, hk, htr, -⟩ := kfree_owned (r := own p) hU' hin hadopt
    rw [Lib.Ref.cell_own] at hk
    have hU₁ : ∀ a ∈ insert p U, a % PGSIZE = 0 ∧ a < p + PGSIZE := by
      intro a ha
      refine ⟨hU' a ha, ?_⟩
      simp only [PGSIZE]
      rcases ha with rfl | ha
      · omega
      · have := (hU a ha).2
        omega
    obtain ⟨km', hk', htr'⟩ := freerange_spec n (p + PGSIZE) km₁ (insert p U) htr hU₁
      (by simp only [PGSIZE] at *; omega) (by omega)
      (by simp only [PGSIZE] at *; omega)
    refine ⟨km', by simp only [freerange, hk]; exact hk', ?_⟩
    have hset : U ∪ {a | a % PGSIZE = 0 ∧ p ≤ a ∧ a < p + (n + 1) * PGSIZE}
        = insert p U ∪ {a | a % PGSIZE = 0 ∧ p + PGSIZE ≤ a
            ∧ a < p + PGSIZE + n * PGSIZE} := by
      ext a
      simp only [Set.mem_union, Set.mem_ofPred_eq, Set.mem_insert_iff, PGSIZE] at *
      constructor
      · rintro (h | h)
        · exact .inl (.inr h)
        · by_cases hap : a = p
          · exact .inl (.inl hap)
          · exact .inr (by omega)
      · rintro ((h | h) | h)
        · exact .inr (by omega)
        · exact .inl h
        · exact .inr (by omega)
    rw [hset]
    exact htr'

/-- **`kinit`** succeeds and leaves every page free. -/
theorem kinit_spec (L : Layout) (ram : Nat → Page) : ∃ km, kinit L ram = .ok km ∧ km.Owns L 0 := by
  have hroom := L.room
  have hup : L.kend ≤ PGROUNDUP L.kend ∧ PGROUNDUP L.kend < L.kend + PGSIZE
      ∧ PGROUNDUP L.kend % PGSIZE = 0 := by
    simp only [PGROUNDUP, PGSIZE, PHYSTOP, u64] at *
    omega
  obtain ⟨hle, hlt, halign⟩ := hup
  obtain ⟨km, hk, htr⟩ := freerange_spec ((PHYSTOP - PGROUNDUP L.kend) / PGSIZE)
    (PGROUNDUP L.kend) ⟨[], fun _ => 0, ram⟩ ∅ (Lib.Owned.empty _)
    (fun a ha => absurd ha (Set.notMem_empty a)) halign hle
    (by simp only [PGSIZE, PHYSTOP] at *; omega)
  refine ⟨km, hk, ?_⟩
  have hset : ∅ ∪ {a | a % PGSIZE = 0 ∧ PGROUNDUP L.kend ≤ a
      ∧ a < PGROUNDUP L.kend + (PHYSTOP - PGROUNDUP L.kend) / PGSIZE * PGSIZE}
      = (L.pages : Set Nat) := by
    ext a
    rw [Set.empty_union, Finset.mem_coe, L.mem_pages]
    simp only [Set.mem_ofPred_eq, PGSIZE, PHYSTOP] at *
    omega
  rw [hset] at htr
  exact htr

end Specs

/-! ## §4. The allocator, page by page. -/

section Pages

variable {L : Layout} {km km' : Kmem}

theorem inRange_aligned {a : Nat} (h : L.inRange a = true) : a % PGSIZE = 0 := by
  simp only [Layout.inRange, decide_eq_true_eq] at h
  by_contra hne
  exact h (.inl hne)

/-- Two frames share a counter only if they are the same. -/
theorem index_ne {a b : Nat} (ha : L.inRange a = true) (hb : L.inRange b = true) (h : a ≠ b) : a / PGSIZE ≠ b / PGSIZE := fun heq =>
  h ((page_index_inj (inRange_aligned ha) (inRange_aligned hb)).mp heq)

theorem kalloc_none (h : (kalloc km).2 = none) : kalloc km = (km, none) := by
  unfold kalloc at h ⊢
  split
  · rfl
  rename_i r next heq
  rw [heq] at h
  dsimp only at h ⊢
  split
  · rfl
  · rename_i hc
    rw [if_neg hc] at h
    cases h

/-- What `kalloc` changes when it finds a page. -/
theorem kalloc_some {pa : Nat} (h : kalloc km = (km', some pa)) :
    pa ∈ km.freelist ∧ km'.freelist ⊆ km.freelist ∧ km.num_ref_to_page (pa / PGSIZE) = 0
      ∧ km'.num_ref_to_page = update km.num_ref_to_page (pa / PGSIZE) 1 ∧ ∀ a, a ≠ pa → km'.mem a = km.mem a := by
  unfold kalloc at h
  split at h
  · cases h
  rename_i r next heq
  split at h
  · cases h
  rename_i hc
  obtain ⟨rfl, hr⟩ := Prod.mk.inj h
  cases hr
  rw [heq]
  refine ⟨List.mem_cons_self, fun x hx => List.mem_cons_of_mem _ hx, not_not.mp hc, rfl, fun a ha => ?_⟩
  exact update_of_ne ha ..

/-- What `kfree` changes. -/
theorem kfree_some {pa : Nat} (hin : L.inRange pa = true) (hpos : 0 < km.num_ref_to_page (pa / PGSIZE)) :
    ∃ km', kfree L km pa = .ok km' ∧ km'.freelist ⊆ pa :: km.freelist
      ∧ (∀ i, i ≠ pa / PGSIZE → km'.num_ref_to_page i = km.num_ref_to_page i) ∧ ∀ a, a ≠ pa → km'.mem a = km.mem a := by
  have hnot : ¬ ¬ L.inRange pa = true := not_not.mpr hin
  have hle : ¬ km.num_ref_to_page (pa / PGSIZE) ≤ 0 := by omega
  unfold kfree
  rw [if_neg hnot, if_neg hle]
  dsimp only
  split
  · refine ⟨_, by rw [kfree_original, if_neg hnot], fun x hx => hx, fun i hi => ?_, fun a ha => ?_⟩
    · exact update_of_ne hi ..
    · exact update_of_ne ha ..
  · refine ⟨_, rfl, fun x hx => List.mem_cons_of_mem _ hx, fun i hi => ?_, fun _ _ => rfl⟩
    exact update_of_ne hi ..

end Pages

end Xv6
