/-
  Xv6.Mem.Uvmcopy — `uvmcopy` (`kernel/vm.c`) and a `fork` that fails in it
  (`kernel/proc.c`).

  The loop marks a page of the parent copy-on-write, takes a reference to its
  frame and maps it for the child, in this order.  When `mappages` finds no
  page for a table, the pages of the child mapped so far are unmapped; the
  reference taken for the page in flight is not given back.

  The counter of a frame is an `int`; a run in which it overflows ends there.

  Main results:
    * `uvmcopyLoop_spec`     — the loop,
    * `uvmcopy_fails`        — no failed call is undone: what it leaves, and
      what the rest of `fork` then frees,
    * `uvmcopy_leaks`        — the frame of the page in flight,
    * `Spaces.copyout_moves` — a write to user memory.
-/
import Xv6.Mem.Cow

namespace Xv6

open Function (update update_of_ne update_self)
open Lib.Ref (own share cell cell_share)
open Multiset (singleton_add mem_add)

/-- `proc_freepagetable(pagetable, sz)` -/
def proc_freepagetable (L : Layout) (km : Kmem) (pt : Pagetable) (sz : Nat) : Result Kmem := do
  let (km, pt) ← uvmunmap L km pt TRAMPOLINE 1 false
  let (km, pt) ← uvmunmap L km pt TRAPFRAME 1 false
  uvmfree L km pt sz

section Specs

variable {L : Layout} {km : Kmem} {F : Multiset PageRef} {tf n : Nat} {pt : Pagetable}

/-! ## §1. One turn. -/

variable {e : Pte}

/-- What `mappages` stores for the child is what the parent now has. -/
theorem map_markCow (h : e.flags.v = true) : Pte.map e.pa e.markCow.flags = e.markCow := by
  simp [Pte.map, Pte.markCow, Flags.or_def, PTE_V, Flags.none, h]

theorem markCow_ref (e : Pte) : e.markCow.ref = share e.pa := by
  simp [Pte.ref, Pte.markCow]

variable {R : Multiset PageRef}

/-- On a page that is referred to, `increase_num_ref` can fail by overflow only. -/
theorem increase_num_ref_cases {r : PageRef} (h : km.Owns L ({r} + R)) :
    (increase_num_ref L km r.cell = .error .overflow ∧ INT_MAX ≤ (R.map cell).count r.cell + 1)
      ∨ ∃ km', increase_num_ref L km r.cell = .ok km' := by
  have hpage := h.mem_pages (r := r) (by simp)
  unfold increase_num_ref
  rw [if_neg (not_not.mpr (Layout.inRange_of_mem hpage))]
  split
  · rename_i hmax
    have hcount := h.count hpage
    rw [singleton_add, Multiset.map_cons, Multiset.count_cons_self] at hcount
    refine .inl ⟨rfl, ?_⟩
    push_cast at hcount
    omega
  · exact .inr ⟨_, rfl⟩

variable {tf' v : Nat} {old new : Pagetable}

/-- **One turn of `uvmcopy`** at page `v`: the frame gets one more reference
and the child maps it, unless no page is left for a table. -/
theorem uvmcopy_turn (hold : UserMap L tf old.flat n)
    (hnew : UserMap L tf' new.flat v) (hv : v < n) (heq : ∀ i, i < v → new.flat i = old.flat i)
    (ho : km.Owns L (frames old.flat 0 n + new.refs v + F)) : (increase_num_ref L km (old.flat v).pa = .error .overflow
      ∧ INT_MAX ≤ (F.map cell).count (old.flat v).pa + 1) ∨
    ∃ km₁ km₂ new₂ r, increase_num_ref L km (old.flat v).pa = .ok km₁
      ∧ mappages km₁ new (v * PGSIZE) PGSIZE (old.flat v).pa (old.flat v).markCow.flags = .ok (km₂, new₂, r)
      ∧ Moves L km km₂ (frames old.flat 0 n + new.tables) (frames (update old.flat v (old.flat v).markCow) 0 n
            + (new₂.tables + {share (old.flat v).pa})) (frames new.flat 0 v + F)
      ∧ (∀ i, i < n → km₂.mem (old.flat i).pa = km.mem (old.flat i).pa) ∧ new₂.tables.card ≤ new.tables.card + 2
      ∧ ((r = 0 ∧ new₂.flat = update new.flat v (old.flat v).markCow ∧ UserMap L tf' new₂.flat (v + 1))
        ∨ (r = -1 ∧ new₂.flat = new.flat ∧ km₂.freelist = [])) := by
  obtain ⟨rest, hsplit, hupd⟩ := frames_split (f := old.flat) hv
  have hmark := hupd (old.flat v).markCow
  rw [markCow_ref] at hmark
  have hcells : (frames new.flat 0 v).map cell
      = (frames old.flat 0 v).map cell := by
    rw [frames_congr fun i _ hi => by rw [heq i (by omega)]]
  -- the child does not map this frame yet
  have hnot : (old.flat v).pa ∉ (frames new.flat 0 v).map cell := by
    rw [hcells]
    intro hin
    obtain ⟨r, hr, hrc⟩ := Multiset.mem_map.mp hin
    obtain ⟨i, -, hi, rfl⟩ := mem_frames.mp hr
    rw [Pte.ref_cell] at hrc
    exact absurd (frames_inj hold.nodup (by omega) hv hrc) (by omega)
  have ho₁ : km.Owns L ({(old.flat v).ref} + (rest + new.refs v + F)) :=
    ho.of_eq (by rw [hsplit]; abel)
  rcases increase_num_ref_cases ho₁ with ⟨hover, hmax⟩ | ⟨km₁, hinc⟩
  · rw [Pte.ref_cell] at hover hmax
    refine .inl ⟨hover, ?_⟩
    -- neither the parent's other pages nor the child refer to this frame
    have hrest : (rest.map cell).count (old.flat v).pa = 0 := by
      have hnd := hold.nodup
      rw [hsplit, singleton_add, Multiset.map_cons, Multiset.nodup_cons, Pte.ref_cell] at hnd
      exact Multiset.count_eq_zero.mpr hnd.1
    have htables : (new.tables.map cell).count (old.flat v).pa = 0 := by
      have hnewo : km.Owns L (new.tables + ({(old.flat v).ref} + (rest + frames new.flat 0 v + F))) :=
        ho₁.of_eq (by rw [Pagetable.refs]; abel)
      refine hnewo.count_tables ?_
      rw [Multiset.map_add, mem_add, Multiset.map_singleton, Pte.ref_cell]
      exact .inl (Multiset.mem_singleton_self _)
    rw [Pagetable.refs, Multiset.map_add, Multiset.map_add, Multiset.map_add, Multiset.count_add, Multiset.count_add,
      Multiset.count_add, hrest, htables, Multiset.count_eq_zero.mpr hnot] at hmax
    simpa using hmax
  right
  obtain ⟨hmv₁, hmem₁⟩ := increase_num_ref_moves ho₁ hinc
  rw [Pte.ref_cell] at hinc hmv₁
  have hb := hold.bound
  have hfree : (new.flat (v * PGSIZE / PGSIZE)).flags.v = false := by
    rw [va_div, hnew.rest v (Nat.le_refl v) (by omega)
      (by simp only [TRAPFRAMEVPN, TRAMPOLINEVPN] at *; omega)]
    rfl
  have hva : v * PGSIZE < MAXVA := va_lt (by simp only [TRAPFRAMEVPN, MAXVPN] at *; omega)
  obtain ⟨km₂, new₂, r, hmap, hmv₂, hcard, hres⟩ := mappages_page_spec
    (old.flat v).pa (old.flat v).markCow.flags
    (F := {share (old.flat v).pa} + {share (old.flat v).pa} + rest + frames new.flat 0 v + F)
    (Nat.mul_mod_left v PGSIZE) hva hfree
    (hmv₁.after.of_eq (by rw [Pagetable.refs]; abel))
  rw [va_div, map_markCow (hold.valid v hv)] at hres
  refine ⟨km₁, km₂, new₂, r, hinc, hmap, ?_, ?_, hcard, ?_⟩
  · rw [hsplit, hmark]
    refine hmv₁.seq hmv₂ (rest + new.tables)
      ({share (old.flat v).pa} + {share (old.flat v).pa} + rest) ?_ ?_ ?_ ?_ ?_
    · rw [Pagetable.refs]; abel
    · abel
    · abel
    · abel
    · abel
  · intro i hi
    have hin : ∃ q ∈ {share (old.flat v).pa} + {share (old.flat v).pa} + rest
        + frames new.flat 0 v + F, q.cell = (old.flat i).pa := by
      by_cases hiv : i = v
      · exact ⟨share (old.flat v).pa, by simp, by rw [hiv]; rfl⟩
      have hmem : (old.flat i).ref ∈ frames old.flat 0 n :=
        mem_frames.mpr ⟨i, by omega, by omega, rfl⟩
      rw [hsplit, singleton_add, Multiset.mem_cons] at hmem
      rcases hmem with hc | hc
      · exact ⟨share (old.flat v).pa, by simp, by
          have := congrArg cell hc
          rw [Pte.ref_cell, Pte.ref_cell] at this
          exact this.symm⟩
      · exact ⟨(old.flat i).ref, by simp [hc], Pte.ref_cell _⟩
    obtain ⟨q, hq, hqc⟩ := hin
    have hsame := hmv₂.same q hq
    rw [hqc] at hsame
    rw [hsame, hmem₁]
  · rcases hres with ⟨hr, hflat⟩ | ⟨hr, hflat, hempty⟩
    · refine .inl ⟨hr, hflat, ?_⟩
      have hgrow := hnew.grow (old.flat v).pa (old.flat v).markCow.flags
        (hold.readable v hv) (fun _ => rfl) (by omega) hnot
      rw [map_markCow (hold.valid v hv)] at hgrow
      rw [hflat]
      exact hgrow
    · exact .inr ⟨hr, hflat, hempty⟩

/-! ## §2. The loop. -/

/-- The parent with the pages of `[v, j)` marked copy-on-write. -/
def markRange (f : Nat → Pte) (v j : Nat) : Nat → Pte :=
  fun i => if v ≤ i ∧ i < j then (f i).markCow else f i

theorem markRange_self (f : Nat → Pte) (v : Nat) : markRange f v v = f := by
  funext i
  exact if_neg (by omega)

theorem markRange_step (f : Nat → Pte) {j : Nat} (hj : v < j) :
    markRange (update f v (f v).markCow) (v + 1) j = markRange f v j := by
  funext i
  simp only [markRange]
  by_cases hiv : i = v
  · rw [hiv, if_neg (by omega), if_pos (by omega), update_self]
  · rw [update_of_ne hiv]
    by_cases hin : v + 1 ≤ i ∧ i < j
    · rw [if_pos hin, if_pos (by omega)]
    · rw [if_neg hin, if_neg (by omega)]

variable {new₂ : Pagetable} {i k : Nat}

/-- A turn whose page the child maps. -/
theorem uvmcopyLoop_next {km₁ km₂ : Kmem} (hw : walk km old i false = .ok (km, old, some e)) (hv : e.flags.v = true)
    (hinc : increase_num_ref L km e.pa = .ok km₁)
    (hmap : mappages km₁ new i PGSIZE e.pa e.markCow.flags = .ok (km₂, new₂, 0)) : uvmcopyLoop L (k + 1) km old new i
      = uvmcopyLoop L k km₂ (old.setPte i e.markCow) new₂ (i + PGSIZE) := by
  rw [uvmcopyLoop, hw, Result.ok_bind]
  dsimp only
  rw [hv, if_neg (by decide), hinc, Result.ok_bind, hmap, Result.ok_bind]
  dsimp only
  rw [if_neg (by decide)]

/-- A turn in which the counter overflows. -/
theorem uvmcopyLoop_overflow (hw : walk km old i false = .ok (km, old, some e)) (hv : e.flags.v = true)
    (hinc : increase_num_ref L km e.pa = .error .overflow) : uvmcopyLoop L (k + 1) km old new i = .error .overflow := by
  rw [uvmcopyLoop, hw, Result.ok_bind]
  dsimp only
  rw [hv, if_neg (by decide), hinc, Result.error_bind]

/-- A turn that finds no page for a table. -/
theorem uvmcopyLoop_fail {km₁ km₂ km₃ : Kmem} {new₃ : Pagetable}
    (hw : walk km old i false = .ok (km, old, some e)) (hv : e.flags.v = true)
    (hinc : increase_num_ref L km e.pa = .ok km₁)
    (hmap : mappages km₁ new i PGSIZE e.pa e.markCow.flags = .ok (km₂, new₂, -1))
    (hun : uvmunmap L km₂ new₂ 0 (i / PGSIZE) true = .ok (km₃, new₃)) :
    uvmcopyLoop L (k + 1) km old new i = .ok (km₃, old.setPte i e.markCow, new₃, -1) := by
  rw [uvmcopyLoop, hw, Result.ok_bind]
  dsimp only
  rw [hv, if_neg (by decide), hinc, Result.ok_bind, hmap, Result.ok_bind]
  dsimp only
  rw [if_pos (by decide), hun, Result.ok_bind]

/-- What `k` turns from page `v` on leave, `R` being the references of the child.  On failure one
reference, to the page they stopped at, is lost. -/
def CopiedUpTo (L : Layout) (tf tf' n k : Nat) (R F : Multiset PageRef) (km : Kmem) (old : Pagetable) (v j : Nat) (km' : Kmem)
    (old' new' : Pagetable) (r : Int) : Prop :=
  j ≤ n ∧ old'.flat = markRange old.flat v j ∧ old'.tables = old.tables ∧ UserMap L tf old'.flat n
    ∧ (∀ i, i < n → km'.mem (old.flat i).pa = km.mem (old.flat i).pa)
    ∧ ((r = 0 ∧ j = n ∧ UserMap L tf' new'.flat n ∧ (∀ i, i < n → new'.flat i = old'.flat i)
        ∧ Moves L km km' (frames old.flat 0 n + R) (frames old'.flat 0 n + new'.refs n) F)
      ∨ (r = -1 ∧ UserMap L tf' new'.flat 0 ∧ (∃ i, i < n ∧ Moves L km km' (frames old.flat 0 n + R)
            (frames old'.flat 0 n + (new'.tables + {share (old.flat i).pa})) F)
        ∧ L.pages.card ≤ (frames old.flat 0 n + R + F).card + 3 * k))

/-- **The loop of `uvmcopy`** from page `v` to the end. -/
theorem uvmcopyLoop_spec {n : Nat} (k : Nat) :
    ∀ (km : Kmem) (old new : Pagetable) (v : Nat), v + k = n → UserMap L tf old.flat n →
      UserMap L tf' new.flat v → (∀ i, i < v → new.flat i = old.flat i) →
      km.Owns L (frames old.flat 0 n + new.refs v + F) → (uvmcopyLoop L k km old new (v * PGSIZE) = .error .overflow
        ∧ ∃ i, i < n ∧ INT_MAX ≤ (F.map cell).count (old.flat i).pa + 1) ∨
      ∃ km' old' new' r j, uvmcopyLoop L k km old new (v * PGSIZE) = .ok (km', old', new', r)
        ∧ v ≤ j ∧ CopiedUpTo L tf tf' n k (new.refs v) F km old v j km' old' new' r := by
  induction k with
  | zero =>
    intro km old new v hvk hold hnew heq ho
    have hv : v = n := by omega
    subst hv
    refine .inr ⟨km, old, new, 0, v, rfl, Nat.le_refl v, Nat.le_refl v, (markRange_self _ _).symm,
      rfl, hold, fun _ _ => rfl, .inl ⟨rfl, rfl, hnew, heq, Moves.refl ho⟩⟩
  | succ k ih =>
    intro km old new v hvk hold hnew heq ho
    have hv : v < n := by omega
    have hb := hold.bound
    have hva : v * PGSIZE < MAXVA := va_lt (by simp only [TRAPFRAMEVPN, MAXVPN] at *; omega)
    have hvalid := hold.valid v hv
    have hfind : old.find (v * PGSIZE) = some (old.flat v) := by
      have hf := find_of_flat old hva (by rw [va_div]; exact hvalid)
      rw [va_div] at hf
      exact hf
    have hwalk : walk km old (v * PGSIZE) false = .ok (km, old, some (old.flat v)) := by
      rw [walk_noalloc km old hva, hfind]
    have hset : (old.setPte (v * PGSIZE) (old.flat v).markCow).flat
        = update old.flat v (old.flat v).markCow := by
      rw [flat_setPte _ hva (by rw [hfind]; rfl), va_div]
    have hold₁ : UserMap L tf (update old.flat v (old.flat v).markCow) n :=
      hold.replace hv hvalid (hold.readable v hv) (fun _ => rfl) (.inl rfl)
    have hpa : ∀ i, (update old.flat v (old.flat v).markCow i).pa
        = (old.flat i).pa := by
      intro i
      by_cases hiv : i = v
      · rw [hiv, update_self]; rfl
      · rw [update_of_ne hiv]
    rcases uvmcopy_turn hold hnew hv heq ho with ⟨hover, hmax⟩ |
      ⟨km₁, km₂, new₂, r, hinc, hmap, hmv, hmem, hcard, hres⟩
    · exact .inl ⟨uvmcopyLoop_overflow hwalk hvalid hover, v, hv, hmax⟩
    rcases hres with ⟨rfl, hflat₂, hnew₂⟩ | ⟨rfl, hflat₂, hempty⟩
    · -- the child maps the page: go on
      have hlow : ∀ i, i < v → new₂.flat i = new.flat i := fun i hi => by
        rw [hflat₂, update_of_ne (by omega)]
      have hrefs : new₂.refs (v + 1) = new₂.tables + {share (old.flat v).pa}
          + frames new.flat 0 v := by
        rw [Pagetable.refs, frames_concat, Nat.zero_add, hflat₂, update_self,
          markCow_ref, frames_congr (g := new.flat) fun i _ hi => by
            rw [update_of_ne (by omega)]]
        abel
      rcases
        ih km₂ (old.setPte (v * PGSIZE) (old.flat v).markCow) new₂ (v + 1) (by omega)
          (by rw [hset]; exact hold₁) hnew₂
          (fun i hi => by
            rw [hset]
            by_cases hiv : i = v
            · rw [hiv, update_self, hflat₂, update_self]
            · rw [update_of_ne hiv, hlow i (by omega), heq i (by omega)])
          (by
            rw [hset]
            exact hmv.after.of_eq (by rw [hrefs]; abel)) with
        ⟨hover, i, hi, hmax⟩ | ⟨km', old', new', r, j, hrun, hvj, hjn, hflat', htab', hold', hmem', hpost⟩
      · rw [hset, hpa] at hmax
        refine .inl ⟨?_, i, hi, hmax⟩
        rw [uvmcopyLoop_next hwalk hvalid hinc hmap, va_succ]
        exact hover
      rw [hset] at hflat' hmem' hpost
      rw [markRange_step old.flat (by omega)] at hflat'
      simp only [hpa] at hmem' hpost
      refine .inr ⟨km', old', new', r, j, ?_, by omega, hjn, hflat', ?_, hold', ?_, ?_⟩
      · rw [uvmcopyLoop_next hwalk hvalid hinc hmap, va_succ]
        exact hrun
      · rw [htab', tables_setPte]
      · intro i hi
        rw [hmem' i hi, hmem i hi]
      have hstep : Moves L km km₂ (frames old.flat 0 n + new.refs v)
          (frames (update old.flat v (old.flat v).markCow) 0 n
            + new₂.refs (v + 1)) F :=
        hmv.frame.of_eq (by rw [Pagetable.refs]; abel) (by rw [hrefs]; abel) rfl
      rcases hpost with ⟨hr, hj, hn', heq', hmv'⟩ | ⟨hr, hn', ⟨i, hi, hmv'⟩, hcard'⟩
      · exact .inl ⟨hr, hj, hn', heq', hstep.trans hmv'⟩
      · refine .inr ⟨hr, hn', ⟨i, hi, hstep.trans hmv'⟩, ?_⟩
        simp only [Pagetable.refs, Multiset.card_add, frames_card] at hcard' ⊢
        omega
    · -- no page left for a table: unmap what the child has
      have hown : km₂.Owns L (new₂.tables + frames new₂.flat 0 v
          + (frames (update old.flat v (old.flat v).markCow) 0 n + {share (old.flat v).pa} + F)) := by
        rw [hflat₂]
        exact hmv.after.of_eq (by abel)
      obtain ⟨km', new', hun, hmv', -, hflat'⟩ := uvmunmap_free_spec
        (by simp only [TRAPFRAMEVPN, MAXVPN] at *; omega)
        (fun i _ hi => by rw [hflat₂]; exact hnew.mapped (by omega)) hown
      rw [hflat₂] at hmv' hflat'
      refine .inr ⟨km', old.setPte (v * PGSIZE) (old.flat v).markCow, new', -1, v + 1, ?_, by omega,
        by omega, ?_, tables_setPte _ _ _, by rw [hset]; exact hold₁, ?_, .inr ⟨rfl, ?_, ?_, ?_⟩⟩
      · have hun' : uvmunmap L km₂ new₂ 0 (v * PGSIZE / PGSIZE) true = .ok (km', new') := by
          rw [va_div]
          exact hun
        exact uvmcopyLoop_fail hwalk hvalid hinc hmap hun'
      · rw [hset, ← markRange_step old.flat (by omega), markRange_self]
      · intro i hi
        have hin : (update old.flat v (old.flat v).markCow i).ref
            ∈ frames (update old.flat v (old.flat v).markCow) 0 n :=
          mem_frames.mpr ⟨i, by omega, by omega, rfl⟩
        have hsame := hmv'.same _ (Multiset.mem_add.mpr
          (.inl (Multiset.mem_add.mpr (.inl hin))))
        rw [Pte.ref_cell, hpa] at hsame
        rw [hsame, hmem i hi]
      · have hs := hnew.shrink (Nat.zero_le v)
        rw [hflat', show v = v - 0 by omega]
        exact hs
      · refine ⟨v, hv, ?_⟩
        rw [hset]
        refine hmv.seq hmv' (frames new.flat 0 v)
          (frames (update old.flat v (old.flat v).markCow) 0 n
            + {share (old.flat v).pa}) rfl rfl ?_ ?_ ?_
        · abel
        · rw [Pagetable.refs]; abel
        · abel
      · have hc := hmv.after.exhausted hempty
        simp only [Pagetable.refs, Multiset.card_add, Multiset.card_singleton,
          frames_card] at hc ⊢
        omega

/-- **`uvmcopy`** of `n` pages into an address space without user pages. -/
theorem uvmcopy_spec {sz : Nat} (hn : n = (sz + (PGSIZE - 1)) / PGSIZE)
    (hold : UserMap L tf old.flat n) (hnew : UserMap L tf' new.flat 0)
    (ho : km.Owns L (frames old.flat 0 n + new.tables + F)) : (uvmcopy L km old new sz = .error .overflow
      ∧ ∃ i, i < n ∧ INT_MAX ≤ (F.map cell).count (old.flat i).pa + 1) ∨
    ∃ km' old' new' r j, uvmcopy L km old new sz = .ok (km', old', new', r)
      ∧ CopiedUpTo L tf tf' n n new.tables F km old 0 j km' old' new' r := by
  have hrefs : new.refs 0 = new.tables := by rw [Pagetable.refs, frames_zero, add_zero]
  have hloop := uvmcopyLoop_spec (F := F) n km old new 0 (Nat.zero_add _) hold hnew
    (fun i hi => absurd hi (Nat.not_lt_zero i)) (by rw [hrefs]; exact ho)
  rw [hrefs, Nat.zero_mul] at hloop
  rw [uvmcopy, ← hn]
  rcases hloop with hover | ⟨km', old', new', r, j, hrun, -, hpost⟩
  · exact .inl hover
  · exact .inr ⟨km', old', new', r, j, hrun, hpost⟩

/-! ## §3. A failed `fork`. -/

/-- Unmapping one of the two pages that every address space has at its top. -/
theorem unmap_top (hv : v < MAXVPN) (hmap : (pt.flat v).mapped) (ho : km.Owns L (pt.tables + F)) :
    ∃ km' pt', uvmunmap L km pt (v * PGSIZE) 1 false = .ok (km', pt') ∧ Moves L km km' pt.tables pt'.tables F
      ∧ pt'.tables = pt.tables ∧ pt'.flat = update pt.flat v Pte.zero := by
  obtain ⟨km', pt', hrun, hmv, htab, hflat⟩ := uvmunmap_keep_spec (v := v) (n := 1) (by omega)
    (fun i h₁ h₂ => by
      obtain rfl : i = v := by omega
      exact hmap) ho
  refine ⟨km', pt', hrun, hmv, htab, ?_⟩
  rw [hflat]
  funext i
  unfold clearRange
  by_cases hi : i = v
  · rw [hi, update_self, if_pos (by omega)]
  · rw [update_of_ne hi, if_neg (by omega)]

/-- **`proc_freepagetable`** gives back everything an address space refers to. -/
theorem proc_freepagetable_spec {sz : Nat} (h : UserMap L tf pt.flat (npages sz))
    (ho : km.Owns L (pt.refs (npages sz) + F)) :
    ∃ km', proc_freepagetable L km pt sz = .ok km' ∧ Moves L km km' (pt.refs (npages sz)) 0 F := by
  have hb := h.bound
  have htop : TRAPFRAMEVPN < TRAMPOLINEVPN ∧ TRAMPOLINEVPN < MAXVPN := by decide
  have htramp : (pt.flat TRAMPOLINEVPN).mapped := by
    rw [h.tramp]
    exact ⟨rfl, rfl⟩
  have htrapf : (pt.flat TRAPFRAMEVPN).mapped := by
    rw [h.trapf]
    exact ⟨rfl, rfl⟩
  obtain ⟨km₁, pt₁, hrun₁, hmv₁, htab₁, hflat₁⟩ := unmap_top (F := frames pt.flat 0 (npages sz) + F) htop.2 htramp
    (ho.of_eq (by rw [Pagetable.refs]; abel))
  have htrapf₁ : (pt₁.flat TRAPFRAMEVPN).mapped := by
    rw [hflat₁, update_of_ne (by omega)]
    exact htrapf
  obtain ⟨km₂, pt₂, hrun₂, hmv₂, htab₂, hflat₂⟩ := unmap_top (htop.1.trans htop.2) htrapf₁ hmv₁.after
  have hlow : ∀ v, v < npages sz → pt₂.flat v = pt.flat v := by
    intro v hv
    rw [hflat₂, update_of_ne (by omega), hflat₁, update_of_ne (by omega)]
  have hframes : frames pt₂.flat 0 (npages sz) = frames pt.flat 0 (npages sz) :=
    frames_congr fun i _ hi => by rw [hlow i (by omega)]
  have hrest : ∀ v, npages sz ≤ v → (pt₂.flat v).flags.v = false := by
    intro v hv
    rw [hflat₂]
    by_cases h₁ : v = TRAPFRAMEVPN
    · rw [h₁, update_self]
      rfl
    rw [update_of_ne h₁, hflat₁]
    by_cases h₂ : v = TRAMPOLINEVPN
    · rw [h₂, update_self]
      rfl
    · rw [update_of_ne h₂, h.rest v hv h₁ h₂]
      rfl
  have hown : km₂.Owns L (pt₂.refs (npages sz) + F) := hmv₂.after.of_eq (by rw [Pagetable.refs, hframes]; abel)
  obtain ⟨km', hfree, hmv'⟩ := uvmfree_spec (fun v hv => by rw [hlow v hv]; exact h.mapped hv) hrest (by omega) hown
  refine ⟨km', ?_, ?_⟩
  · rw [← TRAMPOLINE_eq] at hrun₁
    rw [← TRAPFRAME_eq] at hrun₂
    rw [proc_freepagetable, hrun₁, Result.ok_bind]
    dsimp only
    rw [hrun₂, Result.ok_bind]
    exact hfree
  · have hmv₁₂ := (hmv₁.trans hmv₂).frame
    refine (hmv₁₂.of_eq ?_ ?_ rfl).trans hmv'
    · rw [Pagetable.refs]
    · rw [Pagetable.refs, hframes]

/-- Marking pages copy-on-write changes neither frames nor what is a user page. -/
theorem markRange_same (f : Nat → Pte) (v j i : Nat) :
    (markRange f v j i).pa = (f i).pa ∧ (markRange f v j i).flags.v = (f i).flags.v
      ∧ (markRange f v j i).flags.u = (f i).flags.u := by
  unfold markRange
  split
  · exact ⟨rfl, rfl, rfl⟩
  · exact ⟨rfl, rfl, rfl⟩

/-- The pages of a marked address space are the same. -/
theorem view_marked {km' : Kmem} {pt' : Pagetable} {j : Nat} (h : UserMap L tf pt.flat n)
    (hflat : pt'.flat = markRange pt.flat 0 j)
    (hmem : ∀ i, i < n → km'.mem (pt.flat i).pa = km.mem (pt.flat i).pa) : pt'.view km' = pt.view km := by
  funext a
  obtain ⟨hpa, hv, hu⟩ := markRange_same pt.flat 0 j (a / PGSIZE)
  have huser : pt'.user (a / PGSIZE) = pt.user (a / PGSIZE) := by
    unfold Pagetable.user
    rw [hflat, hv, hu]
  unfold Pagetable.view
  rw [huser, hflat, hpa]
  split
  · rename_i hw
    rw [hmem _ (h.user_lt hw)]
  · rfl

/-- What a process sees depends on the contents of its frames. -/
theorem view_same {km' : Kmem} (h : UserMap L tf pt.flat n) (hsub : ∀ r ∈ frames pt.flat 0 n, r ∈ R)
    (hsame : SameOn R km km') : pt.view km' = pt.view km := by
  apply view_marked h (markRange_self pt.flat 0).symm
  intro i hi
  have hmem := hsame _ (hsub _ (mem_frames.mpr ⟨i, Nat.zero_le i, by omega, rfl⟩))
  rw [Pte.ref_cell] at hmem
  exact hmem

theorem frames_sub_refs (pt : Pagetable) (n : Nat) (F : Multiset PageRef) :
    ∀ r ∈ frames pt.flat 0 n, r ∈ pt.refs n + F := by
  intro r hr
  rw [mem_add, Pagetable.refs, mem_add]
  exact .inl (.inr hr)

/-- The counter of a page, as the number of references in a sum. -/
theorem Kmem.Owns.count_add {pa : Nat} {A B C : Multiset PageRef} (h : km.Owns L (A + B + C)) (hpa : pa ∈ L.pages) :
    km.num_ref_to_page (pa / PGSIZE) = (A.map cell).count pa + (B.map cell).count pa + (C.map cell).count pa := by
  rw [h.count hpa, Multiset.map_add, Multiset.map_add, Multiset.count_add, Multiset.count_add]
  push_cast
  rfl

/-- What the comment of `uvmcopy` promises for a call that fails: nothing of it is left. -/
structure Undone (L : Layout) (km km' : Kmem) (old old' new' : Pagetable) : Prop where
  counts : ∀ pa ∈ L.pages, km'.num_ref_to_page (pa / PGSIZE) = km.num_ref_to_page (pa / PGSIZE)
  child : ∀ v, new'.user v = false
  view : old'.view km' = old.view km

/-- **A failed `uvmcopy` is never undone.**  It leaves the child without user pages and what the parent sees as it was,
and the counters are those from before, but for the page tables of the child, which the rest of `fork` frees, and for the
frame of one page, the one in flight, which has one reference too many, also after the rest of `fork`. -/
theorem uvmcopy_fails {tf' sz : Nat} {old new old' new' : Pagetable} {km' : Kmem} (hn : n = (sz + (PGSIZE - 1)) / PGSIZE)
    (hold : UserMap L tf old.flat n) (hnew : UserMap L tf' new.flat 0)
    (ho : km.Owns L (old.refs n + new.tables + F)) (hrun : uvmcopy L km old new sz = .ok (km', old', new', -1)) :
    ¬ Undone L km km' old old' new' ∧ (∀ v, new'.user v = false) ∧ old'.view km' = old.view km ∧ ∃ i, i < n ∧
      (∀ pa ∈ L.pages, pa ≠ (old.flat i).pa → pa ∉ new.tables.map cell → pa ∉ new'.tables.map cell →
        km'.num_ref_to_page (pa / PGSIZE) = km.num_ref_to_page (pa / PGSIZE)) ∧
      km'.num_ref_to_page ((old.flat i).pa / PGSIZE) = km.num_ref_to_page ((old.flat i).pa / PGSIZE) + 1 ∧
      ∃ km'', proc_freepagetable L km' new' 0 = .ok km'' ∧
        km''.num_ref_to_page ((old.flat i).pa / PGSIZE) = km.num_ref_to_page ((old.flat i).pa / PGSIZE) + 1 ∧
        ∀ pa ∈ L.pages, pa ≠ (old.flat i).pa → pa ∉ new.tables.map cell →
          km''.num_ref_to_page (pa / PGSIZE) = km.num_ref_to_page (pa / PGSIZE) := by
  have ho₁ : km.Owns L (frames old.flat 0 n + new.tables + (old.tables + F)) :=
    ho.of_eq (by rw [Pagetable.refs]; abel)
  rcases uvmcopy_spec hn hold hnew ho₁ with ⟨hover, -⟩ | ⟨km₁, old₁, new₁, r, j, hrun₁, -, hflat, -, hold₁, hmem, hres⟩
  · rw [hrun] at hover
    cases hover
  rw [hrun] at hrun₁
  obtain ⟨rfl, rfl, rfl, rfl⟩ := hrun₁
  rcases hres with ⟨hr, -⟩ | ⟨-, hnew₁, ⟨i, hi, hmv⟩, -⟩
  · exact absurd hr (by decide)
  -- the frames of the parent are the same, marked or not
  have hcells : (frames old'.flat 0 n).map cell = (frames old.flat 0 n).map cell := by
    rw [frames_cells, frames_cells, hflat]
    simp only [(markRange_same old.flat 0 j _).1]
  have hafter : km'.Owns L (frames old'.flat 0 n + (new'.tables + {share (old.flat i).pa}) + (old.tables + F)) := hmv.after
  have hframe : (old.flat i).ref ∈ frames old.flat 0 n := mem_frames.mpr ⟨i, Nat.zero_le i, by omega, rfl⟩
  have hpage : (old.flat i).pa ∈ L.pages := by
    have hp := ho₁.mem_pages (Multiset.mem_add.mpr (.inl (Multiset.mem_add.mpr (.inl hframe))))
    rw [Pte.ref_cell] at hp
    exact hp
  have hcell : (old.flat i).pa ∈ (frames old.flat 0 n).map cell :=
    Multiset.mem_map.mpr ⟨_, hframe, Pte.ref_cell _⟩
  -- it is no table of the child, before and after
  have hnot : (new.tables.map cell).count (old.flat i).pa = 0 := by
    have hnewo : km.Owns L (new.tables + (frames old.flat 0 n + (old.tables + F))) := ho₁.of_eq (by abel)
    refine hnewo.count_tables ?_
    rw [Multiset.map_add, mem_add]
    exact .inl hcell
  have hnot' : (new'.tables.map cell).count (old.flat i).pa = 0 := by
    have hnewo : km'.Owns L (new'.tables + (frames old'.flat 0 n + {share (old.flat i).pa} + (old.tables + F))) :=
      hafter.of_eq (by abel)
    refine hnewo.count_tables ?_
    rw [Multiset.map_add, Multiset.map_add, mem_add, mem_add, hcells]
    exact .inl (.inl hcell)
  have hbefore := fun (pa : Nat) (hpa : pa ∈ L.pages) => ho₁.count_add hpa
  have hcount := fun (pa : Nat) (hpa : pa ∈ L.pages) => hafter.count_add hpa
  have hflight : km'.num_ref_to_page ((old.flat i).pa / PGSIZE) = km.num_ref_to_page ((old.flat i).pa / PGSIZE) + 1 := by
    rw [hbefore _ hpage, hcount _ hpage, hcells, Multiset.map_add, Multiset.count_add, Multiset.map_singleton,
      cell_share, Multiset.count_singleton_self, hnot, hnot']
    push_cast
    omega
  refine ⟨fun hundone => ?_, ?_, ?_, i, hi, ?_, hflight, ?_⟩
  · have hsame := hundone.counts _ hpage
    omega
  · intro v
    by_contra huser
    exact absurd (hnew₁.user_lt (Bool.not_eq_false _ ▸ huser)) (Nat.not_lt_zero v)
  · exact view_marked hold hflat hmem
  · intro pa hpa hne h₀ h₁
    rw [hbefore pa hpa, hcount pa hpa, hcells, Multiset.map_add, Multiset.count_add, Multiset.map_singleton,
      cell_share, Multiset.count_singleton, if_neg hne, Multiset.count_eq_zero.mpr h₀,
      Multiset.count_eq_zero.mpr h₁]
  · have hmap : UserMap L tf' new'.flat (npages 0) := hnew₁
    have hown : km'.Owns L (new'.refs (npages 0)
        + (frames old'.flat 0 n + {share (old.flat i).pa} + (old.tables + F))) :=
      hafter.of_eq (by rw [npages_zero, Pagetable.refs, frames_zero]; abel)
    obtain ⟨km'', hfree, hmv'⟩ := proc_freepagetable_spec hmap hown
    have hfinal : km''.Owns L (frames old'.flat 0 n + {share (old.flat i).pa} + (old.tables + F)) :=
      hmv'.after.of_eq (by abel)
    refine ⟨km'', hfree, ?_, fun pa hpa hne h₀ => ?_⟩
    · rw [hbefore _ hpage, hfinal.count_add hpage, hcells, Multiset.map_singleton, cell_share,
        Multiset.count_singleton_self, hnot]
      push_cast
      omega
    rw [hbefore pa hpa, hfinal.count_add hpa, hcells, Multiset.map_singleton, cell_share,
      Multiset.count_singleton, if_neg hne, Multiset.count_eq_zero.mpr h₀]

/-! ## §4. Writing to user memory. -/

namespace Spaces

/-- A frame that is not copy-on-write is the process's own. -/
theorem own_frame {v : Nat} (hv : v < n) (hcow : (pt.flat v).flags.cow = false) : own (pt.flat v).pa ∈ pt.refs n := by
  have href : (pt.flat v).ref = own (pt.flat v).pa := by rw [Pte.ref, hcow, if_neg Bool.false_ne_true]
  rw [Pagetable.refs, mem_add]
  exact .inr (mem_frames.mpr ⟨v, Nat.zero_le v, by omega, href⟩)

/-- From `pt` to `pt'` some user pages have got the flags of a page that `cowfault` has copied. -/
def Resolves (pt pt' : Pagetable) : Prop := ∀ v,
  (pt'.flat v).flags = (pt.flat v).flags ∨ pt.user v = true ∧ (pt'.flat v).flags = (Pte.resolved 0).flags

theorem Resolves.refl (pt : Pagetable) : Resolves pt pt := fun _ => .inl rfl

theorem Resolves.trans {pt₁ pt₂ : Pagetable} (h₁ : Resolves pt pt₁) (h₂ : Resolves pt₁ pt₂) : Resolves pt pt₂ := by
  intro v
  rcases h₁ v with heq₁ | ⟨huser, heq₁⟩
  · rcases h₂ v with heq₂ | ⟨huser, heq₂⟩
    · exact .inl (heq₂.trans heq₁)
    · unfold Pagetable.user at huser ⊢
      rw [heq₁] at huser
      exact .inr ⟨huser, heq₂⟩
  · rcases h₂ v with heq₂ | ⟨-, heq₂⟩
    · exact .inr ⟨huser, heq₂.trans heq₁⟩
    · exact .inr ⟨huser, heq₂⟩

/-- A copied page. -/
theorem Resolves.update {v pa : Nat} {pt' : Pagetable} (huser : pt.user v = true)
    (hflat : pt'.flat = update pt.flat v (Pte.resolved pa)) : Resolves pt pt' := by
  intro w
  rw [hflat]
  by_cases hw : w = v
  · subst hw
    rw [update_self]
    exact .inr ⟨huser, rfl⟩
  · rw [update_of_ne hw]
    exact .inl rfl

/-- **`cowfault`** on the references of a process: nothing changes, or a shared frame is exchanged for a new one of
its own.  What the process sees stays. -/
theorem cowfault_moves (h : UserMap L tf pt.flat n) (ho : km.Owns L (pt.refs n + F)) (va : Nat) :
    ∃ km' pt' r, cowfault L km pt va = .ok (km', pt', r) ∧ UserMap L tf pt'.flat n
      ∧ Moves L km km' (pt.refs n) (pt'.refs n) F ∧ pt'.view km' = pt.view km ∧ Resolves pt pt'
      ∧ (r = -1 ∧ km' = km ∧ pt' = pt
        ∨ r = 0 ∧ va < MAXVA ∧ pt'.user (va / PGSIZE) = true ∧ (pt'.flat (va / PGSIZE)).flags.cow = false)
      ∧ ((∀ v, pt.user v = true → (pt.flat v).flags.cow = false) → pt' = pt) := by
  have hsame := Moves.refl ho
  by_cases hno : va ≥ MAXVA ∨ va = 0 ∨ pt.user (va / PGSIZE) = false
  · exact ⟨km, pt, -1, cowfault_refuse hno, h, hsame, rfl, .refl pt, .inl ⟨rfl, rfl, rfl⟩, fun _ => rfl⟩
  simp only [not_or, not_le, Bool.not_eq_false] at hno
  obtain ⟨hva, hzero, huser⟩ := hno
  have hv := h.user_lt huser
  rw [cowfault_user hva hzero huser]
  by_cases hcow : (pt.flat (va / PGSIZE)).flags.cow = false
  · rw [if_pos hcow]
    exact ⟨km, pt, 0, rfl, h, hsame, rfl, .refl pt, .inr ⟨rfl, hva, huser, hcow⟩, fun _ => rfl⟩
  rw [if_neg hcow]
  rcases kalloc_spec ho with ⟨hk, -⟩ | ⟨page, km₁, hk, hmv₁, -⟩
  · rw [hk]
    exact ⟨km, pt, -1, rfl, h, hsame, rfl, .refl pt, .inl ⟨rfl, rfl, rfl⟩, fun _ => rfl⟩
  rw [hk]
  dsimp only
  -- the shared reference is set apart from those to the other pages
  obtain ⟨rest, hsplit, hupd⟩ := frames_split (f := pt.flat) hv
  have hshare : (pt.flat (va / PGSIZE)).ref = share (pt.flat (va / PGSIZE)).pa := by
    rw [Pte.ref, if_pos (Bool.not_eq_false _ ▸ hcow)]
  have hmv₂ : Moves L km (km₁.copyPage page (pt.flat (va / PGSIZE)).pa) 0 {own page} (pt.refs n + F) :=
    hmv₁.overwrite (Multiset.mem_singleton_self _)
  have hown : (km₁.copyPage page (pt.flat (va / PGSIZE)).pa).Owns L
      ({share (pt.flat (va / PGSIZE)).pa} + ({own page} + pt.tables + rest + F)) :=
    hmv₂.after.of_eq (by rw [Pagetable.refs, hsplit, hshare]; abel)
  obtain ⟨km₃, hf, hmv₃⟩ := kfree_spec hown
  rw [cell_share] at hf
  have hset := flat_setPte (Pte.resolved page) hva (by rw [find_user hva huser]; rfl : (pt.find va).isSome)
  have hrefs : (pt.setPte va (Pte.resolved page)).refs n = {own page} + pt.tables + rest := by
    have hres : (Pte.resolved page).ref = own page := rfl
    rw [Pagetable.refs, tables_setPte, hset, hupd, hres]
    abel
  have hcopied := (h.userFrames ho).copy huser hk hf hset
  rw [hf, Result.ok_bind]
  refine ⟨km₃, _, 0, rfl, ?_, ?_, hcopied.view, .update huser hset, .inr ⟨rfl, hva, ?_, ?_⟩, fun hno => absurd (hno _ huser) hcow⟩
  · rw [hset]
    refine h.replace hv rfl rfl (fun hc => Bool.noConfusion hc) (.inr ?_)
    intro hin
    refine hmv₁.after.alone ?_
    rw [Pagetable.refs, Multiset.map_add, Multiset.map_add, mem_add, mem_add]
    exact .inl (.inr hin)
  · rw [hrefs]
    refine hmv₂.seq hmv₃ (pt.refs n) ({own page} + pt.tables + rest) rfl rfl ?_ (zero_add _).symm (zero_add _).symm
    rw [Pagetable.refs, hsplit, hshare]
    abel
  · rw [hcopied.user huser]
    exact huser
  · rw [hset, update_self]
    rfl

/-- **`copyout`** on the references of a process.  If it returns 0, what the process sees is overwritten at exactly the
bytes asked for. -/
theorem copyout_moves (h : UserMap L tf pt.flat n) (ho : km.Owns L (pt.refs n + F)) (dstva : Nat) (src : List UInt8) :
    ∃ km' pt' r, copyout L km pt dstva src = .ok (km', pt', r) ∧ UserMap L tf pt'.flat n
      ∧ Moves L km km' (pt.refs n) (pt'.refs n) F
      ∧ (0 ≤ r → pt'.view km' = overwritten (pt.view km) dstva src) ∧ Resolves pt pt'
      ∧ ((∀ v, pt.user v = true → (pt.flat v).flags.cow = false) → pt' = pt) := by
  -- by induction on the bytes still to copy
  induction hlen : src.length using Nat.strong_induction_on generalizing km pt dstva src with
  | _ m ih =>
    by_cases hsrc : src = []
    · refine ⟨km, pt, 0, by rw [copyout, if_pos hsrc], h, Moves.refl ho, fun _ => ?_, .refl pt, fun _ => rfl⟩
      funext a
      rw [overwritten, hsrc, List.length_nil, if_neg (by omega)]
    obtain ⟨km₁, pt₁, r, hrun, h₁, hmv₁, hview₁, hres₁, ⟨rfl, rfl, rfl⟩ | ⟨rfl, hva, huser, hcow⟩, hsame₁⟩ :=
      cowfault_moves h ho (PGROUNDDOWN dstva)
    · exact ⟨km₁, pt₁, -1, copyout_refused hsrc (.inr hrun), h, hmv₁, fun hr => absurd hr (by decide), hres₁, hsame₁⟩
    rw [pagedown_div] at huser hcow
    have hv := h₁.user_lt huser
    have hfit : dstva % PGSIZE + (src.take (chunk dstva src)).length ≤ PGSIZE := by
      rw [List.length_take]
      simp only [chunk, PGSIZE]
      omega
    have hshort := chunk_lt dstva hsrc
    rw [sub_pagedown] at hshort
    -- the page is the process's own now
    have hmv₂ : Moves L km (km₁.write (pt₁.flat (dstva / PGSIZE)).pa (dstva % PGSIZE) (src.take (chunk dstva src)))
        (pt.refs n) (pt₁.refs n) F := hmv₁.write (own_frame hv hcow)
    obtain ⟨km', pt', r', hrun', h', hmv', hview', hres', hsame'⟩ :=
      ih _ (by rw [← hlen]; exact hshort) h₁ hmv₂.after (PGROUNDDOWN dstva + PGSIZE) (src.drop (chunk dstva src)) rfl
    refine ⟨km', pt', r', ?_, h', hmv₂.trans hmv', fun hr => ?_, hres₁.trans hres', fun hno => ?_⟩
    · rw [copyout_turn hsrc hva hrun huser]
      exact hrun'
    · have hwrite : pt₁.view (km₁.write (pt₁.flat (dstva / PGSIZE)).pa (dstva % PGSIZE) (src.take (chunk dstva src)))
          = overwritten (pt.view km) dstva (src.take (chunk dstva src)) := by
        funext a
        rw [view_write (h₁.userFrames hmv₁.after) huser hfit, hview₁]
        rfl
      rw [hview' hr, hwrite, overwritten_split]
    · obtain rfl := hsame₁ hno
      exact hsame' hno

end Spaces

end Specs

/-! ## §5. A `fork` without memory. -/

section Example

/-- A page table with the two pages at the top, in three tables. -/
def topTables (r m l : Nat) : Pagetable :=
  ((Table.cleared r none).set 255 (some (Table.cleared m none))).set 255
    (some ((Table.cleared m none).set 511 (some (Table.cleared l Pte.zero))))

/-- A page table with TRAMPOLINE and TRAPFRAME only. -/
def topSpace (L : Layout) (r m l tf : Nat) : Pagetable :=
  ((topTables r m l).setPte TRAMPOLINE (Pte.map L.trampoline (PTE_R ||| PTE_X))).setPte TRAPFRAME
    (Pte.map tf (PTE_R ||| PTE_W))

/-- One with tables for the pages at the bottom as well, and page 0 in frame `pa`. -/
def lowSpace (L : Layout) (r m l tf m' l' pa : Nat) : Pagetable :=
  Pagetable.setPte (((topSpace L r m l tf).set 0 (some (Table.cleared m' none))).set 0
    (some ((Table.cleared m' none).set 0 (some (Table.cleared l' Pte.zero))))) 0 (Pte.map pa (PTE_R ||| PTE_W ||| PTE_U))

variable (L : Layout) (r m l tf m' l' pa : Nat)

theorem flat_topSpace : (topSpace L r m l tf).flat = update (update (fun _ => Pte.zero) TRAMPOLINEVPN
      (Pte.map L.trampoline (PTE_R ||| PTE_X))) TRAPFRAMEVPN (Pte.map tf (PTE_R ||| PTE_W)) := by
  have htables : (topTables r m l).flat = fun _ => Pte.zero := by
    rw [topTables, flat_install_leaf _ (Table.set_entry_same ..) rfl, flat_install_mid _ rfl, flat_cleared]
  have htramp : TRAMPOLINE / PGSIZE = TRAMPOLINEVPN := by decide
  have htrapf : TRAPFRAME / PGSIZE = TRAPFRAMEVPN := by decide
  rw [topSpace, flat_setPte _ (by decide) rfl, flat_setPte _ (by decide) rfl, htables, htramp, htrapf]

theorem tables_topSpace : (topSpace L r m l tf).tables = {own r} + ({own m} + {own l}) := by
  rw [topSpace, tables_setPte, tables_setPte, topTables, Table.set_set, Pagetable.tables, Table.set_page,
    Table.below_set_new rfl, Mid.tables, Table.set_page, Table.below_set_new rfl]
  unfold Table.below
  simp [Table.cleared, Leaf.tables]

/-- It is an address space without user pages. -/
theorem userMap_topSpace : UserMap L tf (topSpace L r m l tf).flat 0 := by
  have hne : TRAMPOLINEVPN ≠ TRAPFRAMEVPN := by decide
  rw [flat_topSpace]
  refine ⟨fun v hv => absurd hv (Nat.not_lt_zero v), fun v hv => absurd hv (Nat.not_lt_zero v),
    fun v hv => absurd hv (Nat.not_lt_zero v), Multiset.nodup_zero, ?_, update_self .., ?_, Nat.zero_le _⟩
  · rw [update_of_ne hne, update_self]
  · intro v _ h₁ h₂
    rw [update_of_ne h₁, update_of_ne h₂]

theorem flat_lowSpace : (lowSpace L r m l tf m' l' pa).flat
      = update (topSpace L r m l tf).flat 0 (Pte.map pa (PTE_R ||| PTE_W ||| PTE_U)) := by
  rw [lowSpace, flat_setPte _ (by decide) rfl, flat_install_leaf _ (Table.set_entry_same ..) rfl, flat_install_mid _ rfl]
  rfl

theorem tables_lowSpace :
    (lowSpace L r m l tf m' l' pa).tables = {own r} + (({own m'} + {own l'}) + ({own m} + {own l})) := by
  have htop := tables_topSpace L r m l tf
  have hpage : (topSpace L r m l tf).page = r := rfl
  have hbelow : (topSpace L r m l tf).below Mid.tables = {own m} + {own l} := add_left_cancel htop
  rw [lowSpace, tables_setPte, Table.set_set, Pagetable.tables, Table.set_page, hpage, Table.below_set_new rfl, hbelow,
    Mid.tables, Table.set_page, Table.below_set_new rfl]
  have hzero : (Table.cleared m' (none : Option Leaf)).below Leaf.tables = 0 := by
    unfold Table.below
    simp [Table.cleared]
  rw [hzero, add_zero]
  rfl

/-- It is an address space of one page. -/
theorem userMap_lowSpace : UserMap L tf (lowSpace L r m l tf m' l' pa).flat 1 := by
  rw [flat_lowSpace]
  exact (userMap_topSpace L r m l tf).grow pa (PTE_R ||| PTE_W ||| PTE_U) rfl (fun h => (nomatch h)) (by decide)
    (Multiset.notMem_zero pa)

/-- Memory without a free page, each page having one owner. -/
def fullMem : Kmem where
  freelist := []
  num_ref_to_page i := if L.inRange (i * PGSIZE) then 1 else 0
  mem _ _ := 0

theorem fullMem_owns : (fullMem L).Owns L (L.pages.val.map own) := by
  have hcells : (L.pages.val.map own).map cell = L.pages.val := by
    rw [Multiset.map_map]
    exact Multiset.map_id _
  have hone : ∀ a ∈ L.pages, L.pages.val.count a = 1 := fun a ha => Multiset.count_eq_one_of_mem L.pages.nodup ha
  refine ⟨⟨List.nodup_nil, fun a => ?_, fun a ha => ?_, fun a ha => ?_⟩, fun a ha => ?_⟩
  · rw [hcells]
    exact ⟨fun h => (nomatch h), fun h => absurd h.1 h.2⟩
  · have hin := Layout.inRange_of_mem (Finset.mem_coe.mp ha)
    have hpage : a / PGSIZE * PGSIZE = a := Nat.div_mul_cancel (Nat.dvd_of_mod_eq_zero (L.pages_aligned a ha))
    rw [hcells, hone a (Finset.mem_coe.mp ha)]
    show (if L.inRange (a / PGSIZE * PGSIZE) then (1 : Int) else 0) = 1
    rw [hpage, if_pos hin]
  · rw [hcells] at ha
    exact ha
  · obtain ⟨b, hb, heq⟩ := Multiset.mem_map.mp ha
    have hba : b = a := congrArg cell heq
    rw [hcells]
    exact hone a (hba ▸ hb)

/-- Some of the pages of a full memory. -/
theorem fullMem_split (ps : List Nat) (hnd : ps.Nodup) (hps : ∀ a ∈ ps, a ∈ L.pages) :
    ∃ F, (fullMem L).Owns L ((ps.map own : Multiset PageRef) + F) := by
  have hle : (ps : Multiset Nat) ≤ L.pages.val := (Multiset.le_iff_subset (Multiset.coe_nodup.mpr hnd)).mpr hps
  obtain ⟨rest, hrest⟩ := Multiset.le_iff_exists_add.mp hle
  refine ⟨rest.map own, (fullMem_owns L).of_eq ?_⟩
  rw [hrest, Multiset.map_add]
  rfl

/-- Without a free page `walk` adds no table. -/
theorem walk_full {km : Kmem} {pt : Pagetable} {va : Nat} (hva : va < MAXVA) (hnone : pt.entry (PX 2 va) = none)
    (hk : (kalloc km).2 = none) : walk km pt va true = .ok (km, pt, none) := by
  have hlt : ¬ va ≥ MAXVA := by omega
  simp [walk, hlt, walkLevel, hnone, kalloc_none hk]

theorem mappages_full {km : Kmem} {pt : Pagetable} (perm : Flags) (hnone : pt.entry (PX 2 0) = none)
    (hk : (kalloc km).2 = none) : mappages km pt 0 PGSIZE pa perm = .ok (km, pt, -1) := by
  have hloop : mappages km pt 0 PGSIZE pa perm = mappagesLoop perm 0 km pt 0 pa := rfl
  rw [hloop, mappagesLoop, walk_full (by decide) hnone hk, Result.ok_bind]

/-- The parent has one page, and the child none. -/
def oomParent : Pagetable :=
  lowSpace Layout.small 0x87fff000 0x87ffe000 0x87ffd000 0x87ff9000 0x87ffc000 0x87ffb000 0x87ffa000

/-- The page table of the child. -/
def oomChild : Pagetable := topSpace Layout.small 0x87ff8000 0x87ff7000 0x87ff6000 0x87ff5000

/-- The state that the failed call leaves. -/
def oomAfter : Kmem :=
  { fullMem Layout.small with
    num_ref_to_page := update (fullMem Layout.small).num_ref_to_page (0x87ffa000 / PGSIZE) 2 }

theorem oomParent_refs : oomParent.refs 1
    = ↑([0x87fff000, 0x87ffc000, 0x87ffb000, 0x87ffe000, 0x87ffd000, 0x87ffa000].map own) := by
  rw [Pagetable.refs, oomParent, frames_succ, frames_zero, flat_lowSpace, update_self, tables_lowSpace]
  rfl

theorem oom_owns : ∃ F, (fullMem Layout.small).Owns Layout.small (oomParent.refs 1 + oomChild.tables + F) := by
  obtain ⟨F, hF⟩ := fullMem_split Layout.small [0x87fff000, 0x87ffc000, 0x87ffb000, 0x87ffe000, 0x87ffd000,
    0x87ffa000, 0x87ff8000, 0x87ff7000, 0x87ff6000] (by decide) (by simp [Layout.mem_pages, Layout.small, PGSIZE, PHYSTOP])
  refine ⟨F, hF.of_eq ?_⟩
  rw [oomParent_refs, oomChild, tables_topSpace]
  rfl

/-- The run: the reference is taken, `mappages` fails at once, and there is nothing to unmap. -/
theorem oom_run : uvmcopy Layout.small (fullMem Layout.small) oomParent oomChild 4096
      = .ok (oomAfter, oomParent.setPte 0 (Pte.map 0x87ffa000 (PTE_R ||| PTE_W ||| PTE_U)).markCow, oomChild, -1) := by
  have hfind : oomParent.find 0 = some (Pte.map 0x87ffa000 (PTE_R ||| PTE_W ||| PTE_U)) := rfl
  have hwalk : walk (fullMem Layout.small) oomParent 0 false
      = .ok (fullMem Layout.small, oomParent, some (Pte.map 0x87ffa000 (PTE_R ||| PTE_W ||| PTE_U))) := by
    rw [walk_noalloc _ _ (by decide), hfind]
  exact uvmcopyLoop_fail (k := 0) hwalk rfl rfl (mappages_full _ _ rfl rfl) rfl

/-- What the failed call leaves, in this case. -/
theorem uvmcopy_fails_oom :
    ∃ old' new', uvmcopy Layout.small (fullMem Layout.small) oomParent oomChild 4096 = .ok (oomAfter, old', new', -1)
      ∧ ¬ Undone Layout.small (fullMem Layout.small) oomAfter oomParent old' new' := by
  obtain ⟨F, hF⟩ := oom_owns
  have hfails := uvmcopy_fails (n := 1) rfl (userMap_lowSpace ..) (userMap_topSpace ..) hF oom_run
  exact ⟨_, _, oom_run, hfails.1⟩

/-- **A failed `uvmcopy` leaks a reference**: the frame of the parent's only page had one, and now has two. -/
theorem uvmcopy_leaks :
    ∃ km' old' new', uvmcopy Layout.small (fullMem Layout.small) oomParent oomChild 4096 = .ok (km', old', new', -1)
      ∧ (fullMem Layout.small).num_ref_to_page (0x87ffa000 / PGSIZE) = 1
      ∧ km'.num_ref_to_page (0x87ffa000 / PGSIZE) = 2 := by
  exact ⟨_, _, _, oom_run, rfl, rfl⟩

end Example

end Xv6
