/-
  Xv6.Mem.Cow — store page faults and copying to user space (`cowfault` and
  the store-fault branch of `usertrap` of `kernel/trap.c`, `copyout` of
  `kernel/vm.c`).

  A store to a copy-on-write page gets a copy of the frame.  `cowfault` says
  "resolved" to any other valid user page as well, without looking at its W
  bit: in a fault handler that is an endless loop, in `copyout` it is a write
  to a page the process may not write.

  The results hold for any page table whose user pages have frames of their
  own (`UserFrames`); an address space of the kernel is one (`userFrames`).

  Main results:
    * `storeFault_progress` — after a store fault the store succeeds or the
      process is killed,
    * `storeFault_stuck`    — except on a read-only page,
    * `copyout_exact`       — `copyout` writes where the process may,
    * `copyout_text`        — and on a read-only page.
-/
import Xv6.Mem.Uvm

namespace Xv6

open Function (update update_of_ne update_self)
open Lib.Ref (own share)

/-! ## §1. The functions. -/

/-- The PTE that `cowfault` stores: all permissions, and no COW bit. -/
def Pte.resolved (pa : Nat) : Pte :=
  ⟨pa, { PTE_U ||| PTE_V ||| PTE_W ||| PTE_X ||| PTE_R with cow := false }⟩

section

variable (L : Layout)

/-- `cowfault(pagetable, va)` -/
def cowfault (km : Kmem) (pt : Pagetable) (va : Nat) : Result (Kmem × Pagetable × Int) :=
  if va ≥ MAXVA then .ok (km, pt, -1)
  else if va = 0 then .ok (km, pt, -1)
  else do
    let (km, pt, pte) ← walk km pt va false
    match pte with
    | none => .ok (km, pt, -1)
    | some e =>
      if e.flags.u = false ∨ e.flags.v = false then .ok (km, pt, -1)
      else if e.flags.cow = false then .ok (km, pt, 0)
      else
        match kalloc km with
        | (km, none) => .ok (km, pt, -1)
        | (km, some pa_new) => do
            let km := km.copyPage pa_new e.pa
            let pt := pt.setPte va (Pte.resolved pa_new)
            let km ← kfree L km e.pa
            .ok (km, pt, 0)

/-- `usertrap` at a store page fault (`scause` 15) at `va`; whether the process is now killed. -/
def storeFault (km : Kmem) (pt : Pagetable) (va : Nat) : Result (Kmem × Pagetable × Bool) := do
  let (km, pt, r) ← cowfault L km pt va
  .ok (km, pt, decide (r < 0))

theorem chunk_lt (dstva : Nat) {src : List UInt8} (h : src ≠ []) :
    (src.drop (min (PGSIZE - (dstva - PGROUNDDOWN dstva)) src.length)).length < src.length := by
  have hlen := List.length_pos_iff.mpr h
  rw [List.length_drop]
  simp only [PGROUNDDOWN, PGSIZE]
  omega

/-- `copyout(pagetable, dstva, src, len)`; `len` is the length of the list. -/
def copyout (km : Kmem) (pt : Pagetable) (dstva : Nat) (src : List UInt8) : Result (Kmem × Pagetable × Int) :=
  if src = [] then .ok (km, pt, 0)
  else
    let va0 := PGROUNDDOWN dstva
    if va0 > MAXVA then .ok (km, pt, -1)
    else do
      let (km, pt, r) ← cowfault L km pt va0
      if r < 0 then .ok (km, pt, -1)
      else
        match walkaddr pt va0 with
        | none => .ok (km, pt, -1)
        | some pa0 =>
          let n := min (PGSIZE - (dstva - va0)) src.length
          copyout (km.write pa0 (dstva - va0) (src.take n)) pt (va0 + PGSIZE) (src.drop n)
termination_by src.length
decreasing_by exact chunk_lt dstva ‹_›

end

/-! ## §2. User pages. -/

/-- A valid page that user code may access. -/
def Pagetable.user (pt : Pagetable) (v : Nat) : Bool :=
  decide (v < MAXVPN) && ((pt.flat v).flags.v && (pt.flat v).flags.u)

/-- A user page that user code may store to, if need be after a copy. -/
def Pagetable.storable (pt : Pagetable) (v : Nat) : Bool :=
  pt.user v && ((pt.flat v).flags.w || (pt.flat v).flags.cow)

/-- The byte that user code sees at an address. -/
def Pagetable.view (pt : Pagetable) (km : Kmem) (a : Nat) : Option UInt8 :=
  if pt.user (a / PGSIZE) then some (km.mem (pt.flat (a / PGSIZE)).pa (a % PGSIZE)) else none

/-- **Every user page has an allocated frame of its own** among the user pages of this table. -/
structure UserFrames (L : Layout) (km : Kmem) (pt : Pagetable) : Prop where
  range : ∀ v, pt.user v = true → L.inRange (pt.flat v).pa = true
  count : ∀ v, pt.user v = true → 0 < km.num_ref_to_page ((pt.flat v).pa / PGSIZE)
  inj : ∀ v w, pt.user v = true → pt.user w = true → (pt.flat v).pa = (pt.flat w).pa → v = w
  free : ∀ r ∈ km.freelist, L.inRange r = true

theorem user_iff {pt : Pagetable} {v : Nat} :
    pt.user v = true ↔ v < MAXVPN ∧ (pt.flat v).flags.v = true ∧ (pt.flat v).flags.u = true := by
  unfold Pagetable.user
  rw [Bool.and_eq_true, Bool.and_eq_true, decide_eq_true_eq]

theorem storable_iff {pt : Pagetable} {v : Nat} :
    pt.storable v = true ↔ pt.user v = true ∧ ((pt.flat v).flags.w = true ∨ (pt.flat v).flags.cow = true) := by
  unfold Pagetable.storable
  rw [Bool.and_eq_true, Bool.or_eq_true]

section Specs

variable {L : Layout} {km km' : Kmem} {pt : Pagetable} {va v : Nat}

/-- The user pages of an address space are those below its size. -/
theorem UserMap.user_lt {tf n : Nat} (h : UserMap L tf pt.flat n) (hv : pt.user v = true) : v < n := by
  obtain ⟨-, hvalid, huser⟩ := user_iff.mp hv
  by_contra hge
  by_cases htf : v = TRAPFRAMEVPN
  · rw [htf, h.trapf] at huser
    cases huser
  by_cases htr : v = TRAMPOLINEVPN
  · rw [htr, h.tramp] at huser
    cases huser
  rw [h.rest v (by omega) htf htr] at hvalid
  cases hvalid

/-- **An address space of the kernel** is such a table. -/
theorem UserMap.userFrames {tf n : Nat} {F : Multiset PageRef} (h : UserMap L tf pt.flat n)
    (ho : km.Owns L (pt.refs n + F)) : UserFrames L km pt := by
  have hbelow : ∀ v, pt.user v = true → v < n := fun v hv => h.user_lt hv
  have hmem : ∀ v, pt.user v = true → (pt.flat v).ref ∈ pt.refs n + F := by
    intro v hv
    have hframe : (pt.flat v).ref ∈ frames pt.flat 0 n :=
      mem_frames.mpr ⟨v, Nat.zero_le v, by have := hbelow v hv; omega, rfl⟩
    exact Multiset.mem_add.mpr (.inl (Multiset.mem_add.mpr (.inr hframe)))
  refine ⟨fun v hv => ?_, fun v hv => ?_, fun v w hv hw heq => ?_, fun r hr => ?_⟩
  · have hpage := ho.mem_pages (hmem v hv)
    rw [Pte.ref_cell] at hpage
    exact Layout.inRange_of_mem hpage
  · have hpos := Lib.Owned.cnt_pos ho (hmem v hv)
    rw [Pte.ref_cell] at hpos
    exact hpos
  · exact frames_inj h.nodup (hbelow v hv) (hbelow w hw) heq
  · exact Layout.inRange_of_mem (Finset.mem_coe.mp ((ho.tracks.mem_free r).mp hr).1)

theorem copyPage_self (km : Kmem) (dst src : Nat) : (km.copyPage dst src).mem dst = km.mem src := update_self ..

theorem copyPage_ne (km : Kmem) {dst a : Nat} (src : Nat) (h : a ≠ dst) : (km.copyPage dst src).mem a = km.mem a :=
  update_of_ne h ..

/-! ## §3. `cowfault`. -/

theorem va_div_lt (h : va < MAXVA) : va / PGSIZE < MAXVPN := by
  simp only [MAXVA, PGSIZE, MAXVPN] at *
  omega

/-- A user page is found by `walk`. -/
theorem find_user (hva : va < MAXVA) (h : pt.user (va / PGSIZE) = true) : pt.find va = some (pt.flat (va / PGSIZE)) :=
  find_of_flat pt hva (user_iff.mp h).2.1

/-- Everything but a user page is refused. -/
theorem cowfault_refuse (h : va ≥ MAXVA ∨ va = 0 ∨ pt.user (va / PGSIZE) = false) :
    cowfault L km pt va = .ok (km, pt, -1) := by
  unfold cowfault
  by_cases hmax : va ≥ MAXVA
  · rw [if_pos hmax]
  rw [if_neg hmax]
  by_cases hzero : va = 0
  · rw [if_pos hzero]
  rw [if_neg hzero]
  have hva : va < MAXVA := by omega
  have huser : pt.user (va / PGSIZE) = false := by
    rcases h with h | h | h
    · exact absurd h hmax
    · exact absurd h hzero
    · exact h
  rw [walk_noalloc km pt hva, Result.ok_bind]
  cases hfind : pt.find va with
  | none => rfl
  | some e =>
    have hflat := flat_of_find hva hfind
    have hbits : e.flags.u = false ∨ e.flags.v = false := by
      by_contra hno
      simp only [not_or, Bool.not_eq_false] at hno
      rw [← hflat] at hno
      rw [user_iff.mpr ⟨va_div_lt hva, hno.2, hno.1⟩] at huser
      cases huser
    dsimp only
    rw [if_pos hbits]

/-- A user page, past the tests of `cowfault`. -/
theorem cowfault_user (hva : va < MAXVA) (hzero : va ≠ 0) (huser : pt.user (va / PGSIZE) = true) :
    cowfault L km pt va
      = if (pt.flat (va / PGSIZE)).flags.cow = false then .ok (km, pt, 0)
        else match kalloc km with
          | (km, none) => .ok (km, pt, -1)
          | (km, some pa_new) =>
            (kfree L (km.copyPage pa_new (pt.flat (va / PGSIZE)).pa) (pt.flat (va / PGSIZE)).pa) >>= fun km =>
              .ok (km, pt.setPte va (Pte.resolved pa_new), 0) := by
  have hmax : ¬ va ≥ MAXVA := by omega
  obtain ⟨-, hvalid, hu⟩ := user_iff.mp huser
  have hbits : ¬ ((pt.flat (va / PGSIZE)).flags.u = false ∨ (pt.flat (va / PGSIZE)).flags.v = false) := by
    rw [hvalid, hu]
    decide
  unfold cowfault
  rw [if_neg hmax, if_neg hzero, walk_noalloc km pt hva, Result.ok_bind, find_user hva huser]
  dsimp only
  rw [if_neg hbits]

/-- The table after a copy: the page has a new frame. -/
structure Copied (L : Layout) (km : Kmem) (pt : Pagetable) (v : Nat) (km' : Kmem) (pt' : Pagetable) : Prop where
  frames : UserFrames L km' pt'
  flat : ∃ pa, pt'.flat = update pt.flat v (Pte.resolved pa)
  view : pt'.view km' = pt.view km

variable {pt' : Pagetable}

theorem Copied.user (h : Copied L km pt v km' pt') (huser : pt.user v = true) (w : Nat) : pt'.user w = pt.user w := by
  obtain ⟨pa, hflat⟩ := h.flat
  by_cases hw : w = v
  · subst hw
    rw [huser]
    refine user_iff.mpr ⟨(user_iff.mp huser).1, ?_⟩
    rw [hflat, update_self]
    exact ⟨rfl, rfl⟩
  · unfold Pagetable.user
    rw [hflat, update_of_ne hw]

/-- **A copy-on-write page gets a frame of its own.** -/
theorem UserFrames.copy {pa : Nat} {km₁ km₂ : Kmem} (h : UserFrames L km pt) (huser : pt.user v = true)
    (hk : kalloc km = (km₁, some pa)) (hf : kfree L (km₁.copyPage pa (pt.flat v).pa) (pt.flat v).pa = .ok km₂)
    (hflat : pt'.flat = update pt.flat v (Pte.resolved pa)) : Copied L km pt v km₂ pt' := by
  obtain ⟨hmem, hsub, hcnt, hcnt₁, hmem₁⟩ := kalloc_some hk
  have hpa := h.free pa hmem
  -- the new page is the frame of no user page
  have hfresh : ∀ w, pt.user w = true → (pt.flat w).pa ≠ pa := by
    intro w hw heq
    have hpos := h.count w hw
    rw [heq, hcnt] at hpos
    exact absurd hpos (lt_irrefl 0)
  have hne : (pt.flat v).pa / PGSIZE ≠ pa / PGSIZE := index_ne (h.range v huser) hpa (hfresh v huser)
  have hpos : 0 < (km₁.copyPage pa (pt.flat v).pa).num_ref_to_page ((pt.flat v).pa / PGSIZE) := by
    show 0 < km₁.num_ref_to_page _
    rw [hcnt₁, update_of_ne hne]
    exact h.count v huser
  obtain ⟨km₃, hf', hsub₂, hcnt₂, hmem₂⟩ := kfree_some (h.range v huser) hpos
  rw [hf] at hf'
  cases hf'
  have hat : pt'.flat v = Pte.resolved pa := by rw [hflat, update_self]
  have hoff : ∀ w, w ≠ v → pt'.flat w = pt.flat w := fun w hw => by rw [hflat, update_of_ne hw]
  have huser' : ∀ w, pt'.user w = true → pt.user w = true := by
    intro w hw
    by_cases hwv : w = v
    · rw [hwv]
      exact huser
    · unfold Pagetable.user at hw ⊢
      rw [hoff w hwv] at hw
      exact hw
  -- the frames of the other pages are neither the new nor the old one
  have hother : ∀ w, w ≠ v → pt.user w = true → (pt.flat w).pa ≠ (pt.flat v).pa := fun w hwv hw heq =>
    hwv (h.inj w v hw huser heq)
  have hkeep : ∀ w, w ≠ v → pt.user w = true → km₂.mem (pt.flat w).pa = km.mem (pt.flat w).pa := by
    intro w hwv hw
    rw [hmem₂ _ (hother w hwv hw), copyPage_ne _ _ (hfresh w hw), hmem₁ _ (hfresh w hw)]
  have hcopy : km₂.mem pa = km.mem (pt.flat v).pa := by
    rw [hmem₂ _ (hfresh v huser).symm, copyPage_self, hmem₁ _ (hfresh v huser)]
  refine ⟨⟨?_, ?_, ?_, ?_⟩, ⟨pa, hflat⟩, ?_⟩
  · intro w hw
    by_cases hwv : w = v
    · rw [hwv, hat]
      exact hpa
    · rw [hoff w hwv]
      exact h.range w (huser' w hw)
  · intro w hw
    by_cases hwv : w = v
    · rw [hwv, hat]
      show 0 < km₂.num_ref_to_page (pa / PGSIZE)
      rw [hcnt₂ _ hne.symm]
      show 0 < km₁.num_ref_to_page (pa / PGSIZE)
      rw [hcnt₁, update_self]
      decide
    · have hw' := huser' w hw
      rw [hoff w hwv, hcnt₂ _ (index_ne (h.range w hw') (h.range v huser) (hother w hwv hw'))]
      show 0 < km₁.num_ref_to_page _
      rw [hcnt₁, update_of_ne (index_ne (h.range w hw') hpa (hfresh w hw'))]
      exact h.count w hw'
  · intro w₁ w₂ hw₁ hw₂ heq
    by_cases h₁ : w₁ = v
    · by_cases h₂ : w₂ = v
      · rw [h₁, h₂]
      · rw [h₁, hat, hoff w₂ h₂] at heq
        exact absurd heq.symm (hfresh w₂ (huser' w₂ hw₂))
    · by_cases h₂ : w₂ = v
      · rw [h₂, hat, hoff w₁ h₁] at heq
        exact absurd heq (hfresh w₁ (huser' w₁ hw₁))
      · rw [hoff w₁ h₁, hoff w₂ h₂] at heq
        exact h.inj w₁ w₂ (huser' w₁ hw₁) (huser' w₂ hw₂) heq
  · intro r hr
    rcases List.mem_cons.mp (hsub₂ hr) with rfl | hr
    · exact h.range v huser
    · exact h.free r (hsub hr)
  · funext a
    unfold Pagetable.view
    by_cases hav : a / PGSIZE = v
    · have hv' : pt'.user v = true := by
        refine user_iff.mpr ⟨(user_iff.mp huser).1, ?_⟩
        rw [hat]
        exact ⟨rfl, rfl⟩
      rw [hav, hv', huser, if_pos rfl, if_pos rfl, hat]
      exact congrArg (fun page : Page => some (page (a % PGSIZE))) hcopy
    have hsame : pt'.user (a / PGSIZE) = pt.user (a / PGSIZE) := by
      unfold Pagetable.user
      rw [hoff _ hav]
    rw [hsame, hoff _ hav]
    split
    · rename_i hw
      rw [hkeep _ hav hw]
    · rfl

/-- **`cowfault`** refuses, does nothing to a page without COW bit, or copies. -/
theorem cowfault_spec (h : UserFrames L km pt) (va : Nat) : ∃ km' pt' r, cowfault L km pt va = .ok (km', pt', r) ∧
      ((r = -1 ∧ km' = km ∧ pt' = pt ∧ (va ≥ MAXVA ∨ va = 0 ∨ pt.user (va / PGSIZE) = false))
        ∨ (r = -1 ∧ km' = km ∧ pt' = pt ∧ (kalloc km).2 = none ∧ (pt.flat (va / PGSIZE)).flags.cow = true)
        ∨ (r = 0 ∧ km' = km ∧ pt' = pt ∧ va < MAXVA ∧ pt.user (va / PGSIZE) = true
          ∧ (pt.flat (va / PGSIZE)).flags.cow = false)
        ∨ (r = 0 ∧ va < MAXVA ∧ pt.user (va / PGSIZE) = true ∧ (pt.flat (va / PGSIZE)).flags.cow = true
          ∧ Copied L km pt (va / PGSIZE) km' pt')) := by
  by_cases hno : va ≥ MAXVA ∨ va = 0 ∨ pt.user (va / PGSIZE) = false
  · exact ⟨km, pt, -1, cowfault_refuse hno, .inl ⟨rfl, rfl, rfl, hno⟩⟩
  simp only [not_or, not_le, Bool.not_eq_false] at hno
  obtain ⟨hva, hzero, huser⟩ := hno
  rw [cowfault_user hva hzero huser]
  by_cases hcow : (pt.flat (va / PGSIZE)).flags.cow = false
  · rw [if_pos hcow]
    exact ⟨km, pt, 0, rfl, .inr (.inr (.inl ⟨rfl, rfl, rfl, hva, huser, hcow⟩))⟩
  rw [if_neg hcow]
  cases hk : kalloc km with
  | mk km₁ page =>
    cases page with
    | none =>
      have hnone : (kalloc km).2 = none := by rw [hk]
      rw [kalloc_none hnone] at hk
      cases hk
      exact ⟨km, pt, -1, rfl, .inr (.inl ⟨rfl, rfl, rfl, rfl, Bool.not_eq_false _ ▸ hcow⟩)⟩
    | some pa =>
      obtain ⟨hmem, -, hcnt, hcnt₁, -⟩ := kalloc_some hk
      have hfresh : (pt.flat (va / PGSIZE)).pa ≠ pa := by
        intro heq
        have hpos := h.count _ huser
        rw [heq, hcnt] at hpos
        exact absurd hpos (lt_irrefl 0)
      have hpos : 0 < (km₁.copyPage pa (pt.flat (va / PGSIZE)).pa).num_ref_to_page
          ((pt.flat (va / PGSIZE)).pa / PGSIZE) := by
        show 0 < km₁.num_ref_to_page _
        rw [hcnt₁, update_of_ne (index_ne (h.range _ huser) (h.free pa hmem) hfresh)]
        exact h.count _ huser
      obtain ⟨km₂, hf, -⟩ := kfree_some (h.range _ huser) hpos
      have hset := flat_setPte (Pte.resolved pa) hva (by rw [find_user hva huser]; rfl : (pt.find va).isSome)
      dsimp only
      rw [hf, Result.ok_bind]
      exact ⟨km₂, _, 0, rfl, .inr (.inr (.inr ⟨rfl, hva, huser, Bool.not_eq_false _ ▸ hcow, h.copy huser hk hf hset⟩))⟩

/-! ## §4. Store page faults. -/

/-- User code can store to the page. -/
def Pagetable.writable (pt : Pagetable) (v : Nat) : Bool := pt.user v && (pt.flat v).flags.w

/-- A read-only user page without COW bit: nothing changes and the process lives on. -/
theorem storeFault_readonly (hva : va < MAXVA) (hzero : va ≠ 0) (huser : pt.user (va / PGSIZE) = true)
    (hcow : (pt.flat (va / PGSIZE)).flags.cow = false) : storeFault L km pt va = .ok (km, pt, false) := by
  rw [storeFault, cowfault_user hva hzero huser, if_pos hcow, Result.ok_bind]
  rfl

/-- **A store page fault makes progress** (the process is killed, or the store succeeds when it is executed again) except
at an address other than 0 in a read-only user page without COW bit. -/
theorem storeFault_progress (h : UserFrames L km pt) (va : Nat) :
    (∃ km' pt' killed, storeFault L km pt va = .ok (km', pt', killed)
      ∧ (killed = true ∨ pt'.writable (va / PGSIZE) = true))
    ↔ (va ≠ 0 → pt.user (va / PGSIZE) = true → pt.storable (va / PGSIZE) = true) := by
  constructor
  · rintro ⟨km', pt', killed, hrun, hend⟩ hzero huser
    rw [storable_iff]
    refine ⟨huser, ?_⟩
    by_contra hro
    simp only [not_or, Bool.not_eq_true] at hro
    have hva : va < MAXVA := by
      have hlt := (user_iff.mp huser).1
      simp only [PGSIZE, MAXVA, MAXVPN] at hlt ⊢
      omega
    -- nothing changes, and the page is as read-only as before
    rw [storeFault_readonly hva hzero huser hro.2] at hrun
    cases hrun
    rcases hend with hkilled | hw
    · cases hkilled
    · rw [Pagetable.writable, hro.1, Bool.and_false] at hw
      cases hw
  intro hro
  obtain ⟨km', pt', r, hrun, hcases⟩ := cowfault_spec h va
  refine ⟨km', pt', decide (r < 0), by rw [storeFault, hrun, Result.ok_bind], ?_⟩
  rcases hcases with ⟨rfl, -⟩ | ⟨rfl, -⟩ | ⟨rfl, rfl, rfl, -, huser, hcow⟩ | ⟨rfl, -, huser, -, hcopied⟩
  · exact .inl rfl
  · exact .inl rfl
  · have hzero : va ≠ 0 := by
      rintro rfl
      rw [cowfault_refuse (.inr (.inl rfl))] at hrun
      cases hrun
    obtain ⟨-, hw | hc⟩ := storable_iff.mp (hro hzero huser)
    · exact .inr (by rw [Pagetable.writable, huser, hw]; rfl)
    · rw [hcow] at hc
      cases hc
  · obtain ⟨pa, hflat⟩ := hcopied.flat
    refine .inr ?_
    rw [Pagetable.writable, hcopied.user huser, huser, hflat, update_self]
    rfl

end Specs

section Example

/-- Three tables without entries. -/
def emptyTables : Pagetable :=
  ((Table.cleared 0x87fff000 none).set 0 (some (Table.cleared 0x87ffe000 none))).set 0
    (some ((Table.cleared 0x87ffe000 none).set 0 (some (Table.cleared 0x87ffd000 Pte.zero))))

/-- A page table with one entry, for page 1. -/
def onePage (e : Pte) : Pagetable := emptyTables.setPte PGSIZE e

/-- Its frame 0x87ffc000 has two references; two pages are free. -/
def onePageMem : Kmem where
  freelist := [0x87ffb000, 0x87ffa000]
  num_ref_to_page i := if i = 0x87ffc then 2 else if 0x87ffd ≤ i ∧ i ≤ 0x87fff then 1 else 0
  mem _ _ := 0

/-- A page of program text, as `exec` maps it. -/
def textPte : Pte := ⟨0x87ffc000, PTE_R ||| PTE_X ||| PTE_U ||| PTE_V⟩

/-- A copy-on-write page of data. -/
def cowPte : Pte := ⟨0x87ffc000, PTE_R ||| PTE_U ||| PTE_COW ||| PTE_V⟩

theorem flat_emptyTables : emptyTables.flat = fun _ => Pte.zero := by
  rw [emptyTables, flat_install_leaf _ (Table.set_entry_same ..) rfl, flat_install_mid _ rfl, flat_cleared]

theorem flat_onePage (e : Pte) : (onePage e).flat = update (fun _ => Pte.zero) 1 e := by
  rw [onePage, flat_setPte e (by decide) (by decide), flat_emptyTables]
  rfl

variable {e : Pte}

theorem user_onePage {v : Nat} (h : (onePage e).user v = true) : v = 1 := by
  by_contra hne
  obtain ⟨-, hvalid, -⟩ := user_iff.mp h
  rw [flat_onePage, update_of_ne hne] at hvalid
  cases hvalid

theorem onePage_frames (hpa : e.pa = 0x87ffc000) : UserFrames Layout.small onePageMem (onePage e) := by
  have hat : ((onePage e).flat 1).pa = 0x87ffc000 := by rw [flat_onePage, update_self, hpa]
  refine ⟨fun v hv => ?_, fun v hv => ?_, fun v w hv hw _ => ?_, ?_⟩
  · rw [user_onePage hv, hat]
    decide
  · rw [user_onePage hv, hat]
    decide
  · rw [user_onePage hv, user_onePage hw]
  · decide

theorem onePage_user (hv : e.flags.v = true) (hu : e.flags.u = true) : (onePage e).user 1 = true := by
  refine user_iff.mpr ⟨by decide, ?_⟩
  exact ⟨hv, hu⟩

/-- A store to a copy-on-write page. -/
theorem storeFault_progress_cow :
    ∃ km' pt' killed, storeFault Layout.small onePageMem (onePage cowPte) 4104 = .ok (km', pt', killed)
      ∧ (killed = true ∨ pt'.writable (4104 / PGSIZE) = true) := by
  refine (storeFault_progress (onePage_frames rfl) 4104).mpr fun _ huser => storable_iff.mpr ⟨huser, .inr ?_⟩
  show ((onePage cowPte).flat 1).flags.cow = true
  rfl

/-- **A store to program text faults for ever**: the fault leaves everything as it is, the page not writable, and the
process alive. -/
theorem storeFault_stuck : UserFrames Layout.small onePageMem (onePage textPte)
      ∧ storeFault Layout.small onePageMem (onePage textPte) 4104 = .ok (onePageMem, onePage textPte, false)
      ∧ (onePage textPte).writable (4104 / PGSIZE) = false := by
  have hat : (onePage textPte).flat (4104 / PGSIZE) = textPte := by
    show (onePage textPte).flat 1 = textPte
    rw [flat_onePage, update_self]
  refine ⟨onePage_frames rfl, ?_, ?_⟩
  · refine storeFault_readonly (by decide) (by decide) (onePage_user rfl rfl) ?_
    rfl
  · rw [Pagetable.writable, hat, Bool.and_eq_false_iff]
    exact .inr rfl

end Example

/-! ## §5. `copyout`. -/

section Copyout

variable {L : Layout} {km km' : Kmem} {pt : Pagetable} {dstva v : Nat} {src : List UInt8}

/-- The bytes that fit in the page of `dstva`. -/
def chunk (dstva : Nat) (src : List UInt8) : Nat := min (PGSIZE - dstva % PGSIZE) src.length

theorem sub_pagedown (dstva : Nat) : dstva - PGROUNDDOWN dstva = dstva % PGSIZE := by
  simp only [PGROUNDDOWN, PGSIZE]
  omega

theorem pagedown_div (dstva : Nat) : PGROUNDDOWN dstva / PGSIZE = dstva / PGSIZE := va_div _

variable {pt' : Pagetable}

/-- A turn that `cowfault` refuses. -/
theorem copyout_refused (hsrc : src ≠ [])
    (hcow : PGROUNDDOWN dstva > MAXVA ∧ km' = km ∧ pt' = pt ∨ cowfault L km pt (PGROUNDDOWN dstva) = .ok (km', pt', -1)) :
    copyout L km pt dstva src = .ok (km', pt', -1) := by
  rw [copyout, if_neg hsrc]
  by_cases hmax : PGROUNDDOWN dstva > MAXVA
  · rw [if_pos hmax]
    rcases hcow with ⟨-, rfl, rfl⟩ | hcow
    · rfl
    · rw [cowfault_refuse (.inl (by omega))] at hcow
      cases hcow
      rfl
  · rw [if_neg hmax]
    rcases hcow with ⟨hgt, -⟩ | hcow
    · exact absurd hgt hmax
    · rw [hcow, Result.ok_bind]
      rfl

/-- `walkaddr` finds the user pages. -/
theorem walkaddr_user (huser : pt.user (dstva / PGSIZE) = true) :
    walkaddr pt (PGROUNDDOWN dstva) = some (pt.flat (dstva / PGSIZE)).pa := by
  obtain ⟨hlt, hvalid, hu⟩ := user_iff.mp huser
  have hva : PGROUNDDOWN dstva < MAXVA := by
    simp only [PGROUNDDOWN, PGSIZE, MAXVA, MAXVPN] at hlt ⊢
    omega
  have hfind := find_user hva (by rw [pagedown_div]; exact huser)
  rw [pagedown_div] at hfind
  rw [walkaddr, if_neg (by omega), hfind]
  dsimp only
  rw [hvalid, hu, if_neg (by decide), if_neg (by decide)]

/-- A turn that copies to the page. -/
theorem copyout_turn {km₁ : Kmem} {pt₁ : Pagetable} (hsrc : src ≠ []) (hva : PGROUNDDOWN dstva < MAXVA)
    (hcow : cowfault L km pt (PGROUNDDOWN dstva) = .ok (km₁, pt₁, 0)) (huser : pt₁.user (dstva / PGSIZE) = true) :
    copyout L km pt dstva src
      = copyout L (km₁.write (pt₁.flat (dstva / PGSIZE)).pa (dstva % PGSIZE) (src.take (chunk dstva src))) pt₁
          (PGROUNDDOWN dstva + PGSIZE) (src.drop (chunk dstva src)) := by
  have hmax : ¬ PGROUNDDOWN dstva > MAXVA := by omega
  rw [copyout, if_neg hsrc]
  rw [if_neg hmax, hcow, Result.ok_bind]
  dsimp only
  rw [if_neg (by decide), walkaddr_user huser]
  rw [sub_pagedown]
  rfl

/-- **Writing to a user page** changes the bytes written, and nothing else that the process sees. -/
theorem view_write (h : UserFrames L km pt) (huser : pt.user (dstva / PGSIZE) = true) {bs : List UInt8}
    (hfit : dstva % PGSIZE + bs.length ≤ PGSIZE) (a : Nat) :
    pt.view (km.write (pt.flat (dstva / PGSIZE)).pa (dstva % PGSIZE) bs) a
      = if dstva ≤ a ∧ a < dstva + bs.length then bs[a - dstva]? else pt.view km a := by
  unfold Pagetable.view
  by_cases hpage : a / PGSIZE = dstva / PGSIZE
  · rw [hpage, if_pos huser]
    show some (update km.mem _ _ _ (a % PGSIZE)) = _
    rw [update_self]
    have hiff : (dstva % PGSIZE ≤ a % PGSIZE ∧ a % PGSIZE < dstva % PGSIZE + bs.length)
        ↔ dstva ≤ a ∧ a < dstva + bs.length := by
      simp only [PGSIZE] at hpage ⊢
      omega
    by_cases hin : dstva ≤ a ∧ a < dstva + bs.length
    · have hsub : a % PGSIZE - dstva % PGSIZE = a - dstva := by
        simp only [PGSIZE] at hpage ⊢
        omega
      rw [if_pos (hiff.mpr hin), if_pos hin, hsub, List.getD_eq_getElem?_getD,
        List.getElem?_eq_getElem (by omega), Option.getD_some]
    · rw [if_neg (fun hc => hin (hiff.mp hc)), if_neg hin, if_pos huser]
  · have hout : ¬ (dstva ≤ a ∧ a < dstva + bs.length) := by
      simp only [PGSIZE] at hpage hfit ⊢
      omega
    split
    · rename_i hw
      have hne : (pt.flat (a / PGSIZE)).pa ≠ (pt.flat (dstva / PGSIZE)).pa := fun heq => hpage (h.inj _ _ hw huser heq)
      show some (update km.mem _ _ _ (a % PGSIZE)) = _
      rw [update_of_ne hne]
    · rfl

theorem UserFrames.write (h : UserFrames L km pt) (pa off : Nat) (bs : List UInt8) :
    UserFrames L (km.write pa off bs) pt := ⟨h.range, h.count, h.inj, h.free⟩

/-- What the process sees after `src` was copied to `dstva`. -/
def overwritten (view : Nat → Option UInt8) (dstva : Nat) (src : List UInt8) (a : Nat) : Option UInt8 :=
  if dstva ≤ a ∧ a < dstva + src.length then src[a - dstva]? else view a

/-- Every page that `len` bytes from `dstva` on touch is a user page. -/
def allUser (pt : Pagetable) (dstva len : Nat) : Prop :=
  ∀ a, dstva ≤ a → a < dstva + len → pt.user (a / PGSIZE) = true

/-- **One turn of `copyout`**: it fails at page 0, at a page that is not a user page or for want of a page, or the page
takes its share of the bytes. -/
theorem copyout_page (h : UserFrames L km pt) (hsrc : src ≠ []) :
    (copyout L km pt dstva src = .ok (km, pt, -1)
        ∧ (dstva < PGSIZE ∨ pt.user (dstva / PGSIZE) = false
          ∨ (kalloc km).2 = none ∧ (pt.flat (dstva / PGSIZE)).flags.cow = true))
      ∨ ∃ km₁ pt₁, PGSIZE ≤ dstva ∧ pt.user (dstva / PGSIZE) = true ∧ UserFrames L km₁ pt₁
        ∧ (∀ w, pt₁.user w = pt.user w)
        ∧ pt₁.view km₁ = overwritten (pt.view km) dstva (src.take (chunk dstva src)) ∧ copyout L km pt dstva src
            = copyout L km₁ pt₁ (PGROUNDDOWN dstva + PGSIZE) (src.drop (chunk dstva src)) := by
  by_cases hzero : dstva < PGSIZE
  · have hnull : PGROUNDDOWN dstva = 0 := by
      simp only [PGROUNDDOWN, PGSIZE] at hzero ⊢
      omega
    exact .inl ⟨copyout_refused hsrc (.inr (cowfault_refuse (.inr (.inl hnull)))), .inl hzero⟩
  rw [not_lt] at hzero
  have hfit : dstva % PGSIZE + (src.take (chunk dstva src)).length ≤ PGSIZE := by
    rw [List.length_take]
    simp only [chunk, PGSIZE]
    omega
  -- the page is there: write to it
  have hwrite : ∀ km₁ pt₁, cowfault L km pt (PGROUNDDOWN dstva) = .ok (km₁, pt₁, 0) → PGROUNDDOWN dstva < MAXVA →
      UserFrames L km₁ pt₁ → pt₁.user (dstva / PGSIZE) = true → pt₁.view km₁ = pt.view km →
      ∃ km₂, UserFrames L km₂ pt₁ ∧ pt₁.view km₂ = overwritten (pt.view km) dstva (src.take (chunk dstva src))
        ∧ copyout L km pt dstva src
            = copyout L km₂ pt₁ (PGROUNDDOWN dstva + PGSIZE) (src.drop (chunk dstva src)) := by
    intro km₁ pt₁ hcow hva h₁ huser₁ hview
    refine ⟨_, h₁.write .., ?_, copyout_turn hsrc hva hcow huser₁⟩
    funext a
    rw [view_write h₁ huser₁ hfit, hview]
    rfl
  obtain ⟨km₁, pt₁, r, hrun, hcases⟩ := cowfault_spec h (PGROUNDDOWN dstva)
  rw [pagedown_div] at hcases
  rcases hcases with ⟨rfl, rfl, rfl, hno⟩ | ⟨rfl, rfl, rfl, hnone⟩ | ⟨rfl, rfl, rfl, hva, huser, -⟩ |
    ⟨rfl, hva, huser, -, hcopied⟩
  · refine .inl ⟨copyout_refused hsrc (.inr hrun), .inr (.inl ?_)⟩
    rw [← Bool.not_eq_true]
    intro huser
    have hlt := (user_iff.mp huser).1
    rcases hno with hmax | hnull | hu
    · simp only [PGROUNDDOWN, PGSIZE, MAXVA, MAXVPN] at hmax hlt
      omega
    · simp only [PGROUNDDOWN, PGSIZE] at hnull hzero
      omega
    · rw [huser] at hu
      cases hu
  · exact .inl ⟨copyout_refused hsrc (.inr hrun), .inr (.inr hnone)⟩
  · obtain ⟨km₂, h₂, hview, hgo⟩ := hwrite _ _ hrun hva h huser rfl
    exact .inr ⟨km₂, _, hzero, huser, h₂, fun _ => rfl, hview, hgo⟩
  · have huser₁ := (hcopied.user huser (dstva / PGSIZE)).trans huser
    obtain ⟨km₂, h₂, hview, hgo⟩ := hwrite _ _ hrun hva hcopied.frames huser₁ hcopied.view
    exact .inr ⟨km₂, pt₁, hzero, huser, h₂, hcopied.user huser, hview, hgo⟩

/-- **A store to user pages that are not copy-on-write succeeds.**  By induction on the bytes still to copy. -/
theorem copyout_plain (h : ∀ a, dstva ≤ a → a < dstva + src.length → PGSIZE ≤ a
      ∧ pt.user (a / PGSIZE) = true ∧ (pt.flat (a / PGSIZE)).flags.cow = false) :
    ∃ km', copyout L km pt dstva src = .ok (km', pt, 0) := by
  induction hlen : src.length using Nat.strong_induction_on generalizing km dstva src with
  | _ n ih =>
    by_cases hsrc : src = []
    · exact ⟨km, by rw [copyout, if_pos hsrc]⟩
    have hpos : 0 < src.length := List.length_pos_of_ne_nil hsrc
    obtain ⟨hpage, huser, hcow⟩ := h dstva le_rfl (by omega)
    obtain ⟨hbound, -, -⟩ := user_iff.mp huser
    have hva : PGROUNDDOWN dstva < MAXVA := by
      simp only [PGROUNDDOWN, PGSIZE, MAXVA, MAXVPN] at hbound ⊢
      omega
    have hzero : PGROUNDDOWN dstva ≠ 0 := by
      simp only [PGROUNDDOWN, PGSIZE] at hpage ⊢
      omega
    have huser' : pt.user (PGROUNDDOWN dstva / PGSIZE) = true := by rw [pagedown_div]; exact huser
    have hfault : cowfault L km pt (PGROUNDDOWN dstva) = .ok (km, pt, 0) := by
      rw [cowfault_user hva hzero huser', pagedown_div, if_pos hcow]
    have hshort := chunk_lt dstva hsrc
    rw [sub_pagedown] at hshort
    rw [copyout_turn hsrc hva hfault huser]
    refine ih _ (by rw [← hlen]; exact hshort) ?_ rfl
    intro a hle hlt
    rw [List.length_drop] at hlt
    refine h a ?_ ?_
    · simp only [PGROUNDDOWN, PGSIZE] at hle
      omega
    · simp only [chunk, PGROUNDDOWN, PGSIZE] at hlt hle ⊢
      omega

/-- The bytes of the first page, then the others. -/
theorem overwritten_split (view : Nat → Option UInt8) (dstva : Nat) (src : List UInt8) :
    overwritten (overwritten view dstva (src.take (chunk dstva src))) (PGROUNDDOWN dstva + PGSIZE)
      (src.drop (chunk dstva src)) = overwritten view dstva src := by
  funext a
  have htake : (src.take (chunk dstva src)).length = chunk dstva src := by
    rw [List.length_take]
    exact Nat.min_eq_left (Nat.min_le_right ..)
  have hdrop : (src.drop (chunk dstva src)).length = src.length - chunk dstva src := List.length_drop
  have hnext : chunk dstva src < src.length → PGROUNDDOWN dstva + PGSIZE = dstva + chunk dstva src := by
    simp only [chunk, PGROUNDDOWN, PGSIZE]
    omega
  have hle : chunk dstva src ≤ src.length := Nat.min_le_right ..
  unfold overwritten
  rw [htake, hdrop]
  by_cases hfirst : dstva ≤ a ∧ a < dstva + chunk dstva src
  · have hbefore : ¬ (PGROUNDDOWN dstva + PGSIZE ≤ a
        ∧ a < PGROUNDDOWN dstva + PGSIZE + (src.length - chunk dstva src)) := by
      omega
    have hin : dstva ≤ a ∧ a < dstva + src.length := by omega
    rw [if_neg hbefore, if_pos hfirst, if_pos hin, List.getElem?_take_of_lt (by omega)]
  rw [if_neg hfirst]
  by_cases hrest : dstva ≤ a ∧ a < dstva + src.length
  · have heq := hnext (by omega)
    have hindex : chunk dstva src + (a - (PGROUNDDOWN dstva + PGSIZE)) = a - dstva := by omega
    rw [if_pos hrest, if_pos (by omega), List.getElem?_drop, hindex]
  · rw [if_neg hrest]
    by_cases hlast : chunk dstva src < src.length
    · have heq := hnext hlast
      rw [if_neg (by omega)]
    · rw [if_neg (by omega)]

/-- **What `copyout` does**: if page 0 is not touched and every page touched is a user page, whatever its W bit, it
replaces exactly those bytes of what the process sees; otherwise, or if `kalloc` fails, it returns -1. -/
theorem copyout_writes (h : UserFrames L km pt) (dstva : Nat) (src : List UInt8) :
    ∃ km' pt' r, copyout L km pt dstva src = .ok (km', pt', r) ∧
      ((r = 0 ∧ (src = [] ∨ PGSIZE ≤ dstva) ∧ allUser pt dstva src.length
          ∧ pt'.view km' = overwritten (pt.view km) dstva src)
        ∨ (r = -1 ∧ ¬ ((src = [] ∨ PGSIZE ≤ dstva) ∧ allUser pt dstva src.length))
        ∨ (r = -1 ∧ (kalloc km').2 = none)) := by
  -- by induction on the bytes still to copy
  induction hn : src.length using Nat.strong_induction_on generalizing km pt dstva src with
  | _ n ih =>
    subst hn
    by_cases hsrc : src = []
    · subst hsrc
      refine ⟨km, pt, 0, by rw [copyout, if_pos rfl], .inl ⟨rfl, .inl rfl, fun a ha ha' => ?_, ?_⟩⟩
      · rw [List.length_nil] at ha'
        omega
      · funext a
        rw [overwritten, List.length_nil, if_neg (by omega)]
    have hlen := List.length_pos_iff.mpr hsrc
    rcases @copyout_page L km pt dstva src h hsrc with ⟨hrun, hfail⟩ | ⟨km₁, pt₁, hzero, huser, h₁, huser₁, hview₁, hrun⟩
    · refine ⟨km, pt, -1, hrun, ?_⟩
      rcases hfail with hnull | hu | hnone
      · exact .inr (.inl ⟨rfl, fun hok => absurd (hok.1.resolve_left hsrc) (by omega)⟩)
      · refine .inr (.inl ⟨rfl, fun hok => ?_⟩)
        rw [hok.2 dstva le_rfl (by omega)] at hu
        cases hu
      · exact .inr (.inr ⟨rfl, hnone.1⟩)
    have hdrop : (src.drop (chunk dstva src)).length = src.length - chunk dstva src := List.length_drop
    have hchunk : 0 < chunk dstva src ∧ chunk dstva src ≤ src.length := by
      simp only [chunk, PGSIZE]
      omega
    have hnext : chunk dstva src < src.length → PGROUNDDOWN dstva + PGSIZE = dstva + chunk dstva src := by
      simp only [chunk, PGROUNDDOWN, PGSIZE]
      omega
    obtain ⟨km', pt', r, hrun', hres⟩ := ih _ (by rw [hdrop]; omega) h₁ (PGROUNDDOWN dstva + PGSIZE)
      (src.drop (chunk dstva src)) rfl
    refine ⟨km', pt', r, hrun.trans hrun', ?_⟩
    -- all pages of the range: the first and the others
    have hall : allUser pt dstva src.length
        ↔ allUser pt₁ (PGROUNDDOWN dstva + PGSIZE) (src.drop (chunk dstva src)).length := by
      rw [hdrop]
      constructor
      · intro hall a ha ha'
        rw [huser₁]
        exact hall a (by omega) (by omega)
      intro hall a ha ha'
      by_cases hpage : a / PGSIZE = dstva / PGSIZE
      · rw [hpage]
        exact huser
      have hge : PGROUNDDOWN dstva + PGSIZE ≤ a := by
        simp only [PGROUNDDOWN, PGSIZE] at hpage ⊢
        omega
      have hlt : chunk dstva src < src.length := by
        simp only [chunk, PGROUNDDOWN, PGSIZE] at hge ⊢
        omega
      rw [← huser₁]
      exact hall a hge (by omega)
    rcases hres with ⟨hr, -, hok, hview⟩ | ⟨hr, hnot⟩ | ⟨hr, hnone⟩
    · refine .inl ⟨hr, .inr hzero, hall.mpr hok, ?_⟩
      rw [hview, hview₁, overwritten_split]
    · exact .inr (.inl ⟨hr, fun hok => hnot ⟨.inr (Nat.le_add_left ..), hall.mp hok.2⟩⟩)
    · exact .inr (.inr ⟨hr, hnone⟩)

end Copyout

end Xv6
