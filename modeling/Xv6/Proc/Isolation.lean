/-
  Xv6.Proc.Isolation — what holds of the address spaces in every state that
  the operations of `Xv6.Proc.Spaces` lead to.

  All of it is read off the one invariant `Inv`.  An entry that is not
  copy-on-write owns its frame, and an owner is alone with its page, so no
  other process can see what is stored there; the counter of a page is the
  number of references in the invariant, so it is the number of entries and
  owners; and the shape of an address space is a part of the invariant.

  Main results:
    * `space_shape`   — which pages a process has; no operation panics,
    * `cow_isolation` — a store is seen by nobody else,
    * `counts_exact`  — `num_ref_to_page` counts the holders of a page.
-/
import Xv6.Proc.Spaces

namespace Xv6.Spaces

open Lib.Ref (own cell)

/-! ## §1. The shape of an address space. -/

/-- Valid entries are leaves and stand exactly at the pages of the image, the trapframe and the trampoline. -/
structure Space.Shaped (sp : Space) : Prop where
  valid : ∀ v, (sp.pagetable.flat v).flags.v = true
    ↔ v * PGSIZE < PGROUNDUP sp.sz ∨ v * PGSIZE = TRAPFRAME ∨ v * PGSIZE = TRAMPOLINE
  leaf : ∀ v, (sp.pagetable.flat v).flags.v = true → (sp.pagetable.flat v).mapped
  bound : PGROUNDUP sp.sz ≤ TRAPFRAME

section Shape

variable {L : Layout} {s : Sys} {sp : Space}

theorem Space.Good.shaped (h : sp.Good L) : sp.Shaped := by
  have hpages : ∀ v, v * PGSIZE < PGROUNDUP sp.sz ↔ v < npages sp.sz := by
    intro v
    rw [PGROUNDUP_eq]
    exact Nat.mul_lt_mul_right (by decide)
  have htf : ∀ v, v * PGSIZE = TRAPFRAME ↔ v = TRAPFRAMEVPN := by
    intro v
    rw [TRAPFRAME_eq]
    exact Nat.mul_left_inj (by decide)
  have htr : ∀ v, v * PGSIZE = TRAMPOLINE ↔ v = TRAMPOLINEVPN := by
    intro v
    rw [TRAMPOLINE_eq]
    exact Nat.mul_left_inj (by decide)
  have hcases : ∀ v, v < npages sp.sz ∨ v = TRAPFRAMEVPN ∨ v = TRAMPOLINEVPN → (sp.pagetable.flat v).mapped := by
    rintro v (hv | rfl | rfl)
    · exact h.shape.mapped hv
    · rw [h.shape.trapf]
      exact ⟨rfl, rfl⟩
    · rw [h.shape.tramp]
      exact ⟨rfl, rfl⟩
  have hvalid : ∀ v, (sp.pagetable.flat v).flags.v = true → v < npages sp.sz ∨ v = TRAPFRAMEVPN ∨ v = TRAMPOLINEVPN := by
    intro v hv
    by_contra hno
    simp only [not_or, not_lt] at hno
    rw [h.shape.rest v hno.1 hno.2.1 hno.2.2] at hv
    cases hv
  refine ⟨fun v => ?_, fun v hv => hcases v (hvalid v hv), ?_⟩
  · rw [hpages, htf, htr]
    exact ⟨hvalid v, fun hv => (hcases v hv).1⟩
  · rw [PGROUNDUP_eq, TRAPFRAME_eq]
    exact Nat.mul_le_mul_right _ h.shape.bound

/-- **The shape of every address space**, after any sequence of operations.  No operation panics, or goes on with a null
pointer. -/
theorem space_shape (h : Reachable L s) :
    (∀ p sp, s.proc p = some sp → sp.Shaped) ∧ ∀ op, (∃ s', step L s op = .ok s') ∨ step L s op = .error .overflow := by
  obtain ⟨K, hinv⟩ := h.inv
  refine ⟨fun p sp hp => (hinv.good p sp hp).shaped, fun op => ?_⟩
  rcases hinv.step op with ⟨herr, -⟩ | ⟨s', -, hok, -⟩
  · exact .inr herr
  · exact .inl ⟨s', hok⟩

/-- With two processes. -/
theorem space_shape_forked :
    ∃ s sp sc, Reachable Layout.small s ∧ (s.proc firstSlot = some sp ∧ s.proc secondSlot = some sc)
      ∧ sp.Shaped ∧ sc.Shaped ∧ ∀ op, (∃ s', step Layout.small s op = .ok s') ∨ step Layout.small s op = .error .overflow := by
  obtain ⟨s, sp, sc, hs, hp, hc, -⟩ := forked_reachable
  obtain ⟨hshape, hstep⟩ := space_shape hs.reachable
  exact ⟨s, sp, sc, hs.reachable, ⟨hp, hc⟩, hshape _ _ hp, hshape _ _ hc, hstep⟩

end Shape

/-! ## §2. Isolation. -/

/-- The bytes that the process in a slot sees. -/
def Sys.view (s : Sys) (p : Fin NPROC) (a : Nat) : Option UInt8 :=
  match s.proc p with
  | none => none
  | some sp => sp.pagetable.view s.km a

/-- **Copy-on-write isolation** in a state. -/
structure Isolated (L : Layout) (s : Sys) : Prop where
  /-- a frame with two entries is read-only and copy-on-write in both -/
  shared : ∀ p q sp sq v w, s.proc p = some sp → s.proc q = some sq → v < npages sp.sz → w < npages sq.sz →
    (p, v) ≠ (q, w) → (sp.pagetable.flat v).pa = (sq.pagetable.flat w).pa →
    ((sp.pagetable.flat v).flags.w = false ∧ (sp.pagetable.flat v).flags.cow = true)
      ∧ (sq.pagetable.flat w).flags.w = false ∧ (sq.pagetable.flat w).flags.cow = true
  /-- a store changes one byte, or faults and changes none -/
  store : ∀ p sp va b, s.proc p = some sp → ∃ s', step L s (.store p va b) = .ok s'
    ∧ s'.view p = (if sp.pagetable.writable (va / PGSIZE) then overwritten (s.view p) va [b] else s.view p)
    ∧ ∀ q, q ≠ p → s'.view q = s.view q
  /-- a `copyout` that returns 0 changes the bytes it was given -/
  copyout : ∀ p sp dstva src, s.proc p = some sp → ∃ km pt r, copyout L s.km sp.pagetable dstva src = .ok (km, pt, r)
    ∧ ∃ s', step L s (.copyout p dstva src) = .ok s' ∧ (r = 0 → s'.view p = overwritten (s.view p) dstva src)
    ∧ ∀ q, q ≠ p → s'.view q = s.view q
  /-- a child sees what its parent sees -/
  fork : ∀ p c s', step L s (.fork p c) = .ok s' → s.proc c = none → s'.proc c ≠ none →
    s'.view c = s'.view p ∧ s'.view p = s.view p

section Isolation

variable {L : Layout} {K : Multiset PageRef} {s : Sys} {p q : Fin NPROC} {sp sq : Space} {km : Kmem}

theorem Sys.mem_others {r : PageRef} (hq : s.proc q = some sq) (hne : q ≠ p) (hr : r ∈ sq.refs) : r ∈ s.others p := by
  rw [Sys.others, Multiset.mem_sum]
  refine ⟨q, Finset.mem_erase.mpr ⟨hne, Finset.mem_univ q⟩, ?_⟩
  rw [hq]
  exact hr

theorem mem_refs {v : Nat} (hv : v < npages sp.sz) : (sp.pagetable.flat v).ref ∈ sp.refs := by
  exact frames_sub_refs _ _ _ _ (mem_frames.mpr ⟨v, Nat.zero_le v, by omega, rfl⟩)

/-- A frame that another entry maps is copy-on-write. -/
theorem Inv.cow_of_shared {v w : Nat} (h : Inv L K s) (hp : s.proc p = some sp) (hq : s.proc q = some sq)
    (hv : v < npages sp.sz) (hw : w < npages sq.sz) (hne : (p, v) ≠ (q, w))
    (hpa : (sp.pagetable.flat v).pa = (sq.pagetable.flat w).pa) :
    (sp.pagetable.flat v).flags.w = false ∧ (sp.pagetable.flat v).flags.cow = true := by
  obtain ⟨hgood, hown⟩ := h.own hp
  have hcow : (sp.pagetable.flat v).flags.cow = true := by
    by_contra hno
    have hmem : Lib.Ref.own (sp.pagetable.flat v).pa ∈ sp.refs :=
      Multiset.mem_add.mpr (.inl (own_frame hv (Bool.not_eq_true _ ▸ hno)))
    by_cases hpq : q = p
    · -- the frames of one process are distinct
      subst hpq
      obtain rfl := Option.some.inj (hp.symm.trans hq)
      exact hne (by rw [frames_inj hgood.shape.nodup hv hw hpa])
    -- an owner is alone with its page
    obtain ⟨rest, hrest⟩ := Multiset.exists_cons_of_mem hmem
    rw [hrest, Multiset.cons_add, ← Multiset.singleton_add] at hown
    refine hown.alone ?_
    rw [hpa, ← Pte.ref_cell]
    apply Multiset.mem_map_of_mem
    have hin := Sys.mem_others hq hpq (mem_refs hw)
    simp only [Multiset.mem_add]
    exact .inr (.inl (.inl hin))
  exact ⟨hgood.shape.cow v hv hcow, hcow⟩

theorem Sys.view_some (hp : s.proc p = some sp) : s.view p = sp.pagetable.view s.km := by
  funext a
  rw [Sys.view, hp]

theorem Sys.view_put_self (s : Sys) (km : Kmem) (p : Fin NPROC) (sp : Space) :
    (s.put km p (some sp)).view p = sp.pagetable.view km :=
  Sys.view_some (Sys.put_self s km p (some sp))

/-- **What is in the frame of an operation is seen as before.** -/
theorem Inv.view_other {A A' : Multiset PageRef} {o : Option Space} (h : Inv L K s)
    (hmv : Moves L s.km km A A' (s.others p + s.kernelRefs + K)) (hne : q ≠ p) : (s.put km p o).view q = s.view q := by
  funext a
  unfold Sys.view
  rw [Sys.put_ne _ _ _ hne]
  cases hq : s.proc q with
  | none => rfl
  | some sq =>
    have hsub : ∀ r ∈ frames sq.pagetable.flat 0 (npages sq.sz), r ∈ s.others p + s.kernelRefs + K := by
      intro r hr
      have hin := Sys.mem_others hq hne (Multiset.mem_add.mpr (.inl (Multiset.mem_add.mpr (.inr hr))))
      simp only [Multiset.mem_add]
      exact .inl (.inl hin)
    exact congrFun (view_same (h.good q sq hq).shape hsub hmv.same) a

/-- A store of user code, in the view of its process. -/
theorem userStore_view {F : Multiset PageRef} (h : sp.Good L) (ho : s.km.Owns L (sp.refs + F)) (va : Nat) (b : UInt8) :
    ∃ km' sp', userStore L s.km sp va b = .ok (km', sp') ∧ Moves L s.km km' sp.refs sp'.refs F
      ∧ sp'.pagetable.view km' = if sp.pagetable.writable (va / PGSIZE)
          then overwritten (sp.pagetable.view s.km) va [b] else sp.pagetable.view s.km := by
  have hown : s.km.Owns L (sp.pagetable.refs (npages sp.sz) + ({own sp.trapframe} + F)) :=
    ho.of_eq (by rw [Space.refs]; abel)
  obtain ⟨km', sp', hrun, -, -, hmv, -⟩ := userStore_spec h ho va b
  refine ⟨km', sp', hrun, hmv, ?_⟩
  unfold userStore at hrun
  split at hrun
  · rename_i hw
    cases hrun
    rw [if_pos hw]
    rw [Pagetable.writable, Bool.and_eq_true] at hw
    have hfit : va % PGSIZE + [b].length ≤ PGSIZE := Nat.mod_lt va (by decide)
    funext a
    rw [view_write (h.shape.userFrames hown) hw.1 hfit]
    rfl
  · rename_i hw
    obtain ⟨km₁, pt₁, r, hfault, -, -, hview, -⟩ := cowfault_moves h.shape hown va
    rw [storeFault, hfault, Result.ok_bind] at hrun
    cases hrun
    rw [if_neg hw]
    exact hview

/-- **The invariant isolates.** -/
theorem Inv.isolated (h : Inv L K s) : Isolated L s := by
  refine ⟨?_, ?_, ?_, ?_⟩
  · intro p q sp sq v w hp hq hv hw hne hpa
    exact ⟨h.cow_of_shared hp hq hv hw hne hpa, h.cow_of_shared hq hp hw hv (Ne.symm hne) hpa.symm⟩
  · intro p sp va b hp
    obtain ⟨hgood, hown⟩ := h.own hp
    obtain ⟨km', sp', hrun, hmv, hview⟩ := userStore_view hgood hown va b
    refine ⟨s.put km' p (some sp'), ?_, ?_, fun q hq => h.view_other hmv hq⟩
    · rw [Spaces.step, hp]
      dsimp only
      rw [hrun, Result.ok_bind]
    · rw [Sys.view_put_self, Sys.view_some hp]
      exact hview
  · intro p sp dstva src hp
    obtain ⟨hgood, hown⟩ := h.own hp
    obtain ⟨km', pt', r, hrun, -, hmv, hview, -⟩ := copyout_moves hgood.shape
      (F := {Lib.Ref.own sp.trapframe} + (s.others p + s.kernelRefs + K)) (hown.of_eq (by rw [Space.refs]; abel)) dstva src
    refine ⟨km', pt', r, hrun, s.put km' p (some { sp with pagetable := pt' }), ?_, ?_,
      fun q hq => h.view_other hmv.frame hq⟩
    · rw [Spaces.step, hp]
      dsimp only
      rw [hrun, Result.ok_bind]
    · intro hr
      rw [Sys.view_put_self, Sys.view_some hp]
      exact hview hr.ge
  intro p c s' hstep hc hc'
  rw [Spaces.step] at hstep
  cases hp : s.proc p with
  | none =>
    rw [hp] at hstep
    cases hstep
    exact absurd hc hc'
  | some sp =>
    rw [hp, hc] at hstep
    dsimp only at hstep
    obtain ⟨hgood, hown⟩ := h.own hp
    have hne : p ≠ c := by
      rintro rfl
      rw [hp] at hc
      cases hc
    rcases fork_spec hgood hown with ⟨hover, -⟩ | ⟨km', sp', child, r, hrun, hmarked, hcase⟩
    · rw [hover, Result.error_bind] at hstep
      cases hstep
    rw [hrun, Result.ok_bind] at hstep
    cases hstep
    rw [Sys.put_self] at hc'
    rcases hcase with ⟨rfl, -⟩ | ⟨ch, rfl, -, -, -, -, hview⟩
    · exact absurd rfl hc'
    · have hparent : ((s.put km' p (some sp')).put km' c (some ch)).proc p = some sp' :=
        (Sys.put_ne _ _ _ hne).trans (Sys.put_self ..)
      rw [Sys.view_put_self, Sys.view_some hparent, Sys.view_some hp]
      exact ⟨hview, hmarked.view⟩

/-- **Copy-on-write isolation** after any sequence of operations. -/
theorem cow_isolation (h : Reachable L s) : Isolated L s := by
  obtain ⟨K, hinv⟩ := h.inv
  exact hinv.isolated

/-- One process has a frame of its own, and the entry of the other is still copy-on-write. -/
theorem cow_isolation_forked :
    ∃ s sp sc, Reachable Layout.small s ∧ (s.proc firstSlot = some sp ∧ s.proc secondSlot = some sc)
      ∧ (sp.pagetable.writable 0 = true ∧ (sc.pagetable.flat 0).flags.cow = true) ∧ Isolated Layout.small s := by
  obtain ⟨s, sp, sc, hs, hp, hc, hflags⟩ := forked_reachable
  exact ⟨s, sp, sc, hs.reachable, ⟨hp, hc⟩, hflags, cow_isolation hs.reachable⟩

end Isolation

/-! ## §3. The counters. -/

/-- The user entries of a process that map a page. -/
def Space.leaves (sp : Space) (pa : Nat) : Nat :=
  ((Finset.range TRAPFRAMEVPN).filter fun v =>
    (sp.pagetable.flat v).flags.v = true ∧ (sp.pagetable.flat v).pa = pa).card

/-- A page is a page table or the trapframe of the process. -/
def Space.owners (sp : Space) (pa : Nat) : Nat :=
  (sp.pagetable.tables.map cell).count pa + if pa = sp.trapframe then 1 else 0

/-- The references of one process to a page. -/
def Sys.slotHolders (s : Sys) (p : Fin NPROC) (pa : Nat) : Nat :=
  match s.proc p with
  | none => 0
  | some sp => sp.leaves pa + sp.owners pa

/-- Who holds a page: the user entries that map it, and its owners in the kernel. -/
def Sys.holders (s : Sys) (pa : Nat) : Nat := ∑ p, s.slotHolders p pa + s.kernel.count pa

section Counts

variable {L : Layout} {s : Sys} {sp : Space}

/-- The valid entries are those of the image. -/
theorem Space.Good.leaves_eq (h : sp.Good L) (pa : Nat) :
    sp.leaves pa = ((frames sp.pagetable.flat 0 (npages sp.sz)).map cell).count pa := by
  have hcells : (frames sp.pagetable.flat 0 (npages sp.sz)).map cell
      = (Multiset.range (npages sp.sz)).map fun v => (sp.pagetable.flat v).pa := by
    rw [frames_cells, ← List.range_eq_range']
    rfl
  have hset : ((Finset.range TRAPFRAMEVPN).filter fun v =>
      (sp.pagetable.flat v).flags.v = true ∧ (sp.pagetable.flat v).pa = pa)
      = (Finset.range (npages sp.sz)).filter fun v => pa = (sp.pagetable.flat v).pa := by
    ext v
    have hb := h.shape.bound
    simp only [Finset.mem_filter, Finset.mem_range]
    constructor
    · rintro ⟨hv, hvalid, hpa⟩
      refine ⟨?_, hpa.symm⟩
      by_contra hge
      have htop : v ≠ TRAMPOLINEVPN := by
        have : TRAPFRAMEVPN < TRAMPOLINEVPN := by decide
        omega
      rw [h.shape.rest v (Nat.le_of_not_lt hge) (Nat.ne_of_lt hv) htop] at hvalid
      cases hvalid
    · rintro ⟨hv, hpa⟩
      exact ⟨by omega, h.shape.valid v hv, hpa.symm⟩
  rw [Space.leaves, hset, hcells, Multiset.count_map]
  rfl

theorem Space.Good.count_refs (h : sp.Good L) (pa : Nat) : (sp.refs.map cell).count pa = sp.leaves pa + sp.owners pa := by
  rw [h.leaves_eq, Space.owners, Space.refs, Pagetable.refs]
  simp only [Multiset.map_add, Multiset.count_add, Multiset.map_singleton, Lib.Ref.cell_own, Multiset.count_singleton]
  omega

/-- References are counted slot by slot. -/
theorem Sys.count_refs (s : Sys) (pa : Nat) : (s.refs.map cell).count pa
      = ∑ p, ((slotRefs (s.proc p)).map cell).count pa + s.kernel.count pa := by
  have hsum : ((∑ p, slotRefs (s.proc p)).map cell).count pa
      = ∑ p, ((slotRefs (s.proc p)).map cell).count pa :=
    map_sum ((Multiset.countAddMonoidHom pa).comp (Multiset.mapAddMonoidHom cell)) (fun p => slotRefs (s.proc p)) _
  have hker : (s.kernelRefs.map cell).count pa = s.kernel.count pa := by
    rw [Sys.kernelRefs, Multiset.map_coe, List.map_map, Multiset.coe_count]
    exact congrArg (List.count pa) (List.map_id _)
  rw [Sys.refs, Multiset.map_add, Multiset.count_add, hsum, hker]

theorem Inv.count_holders {K : Multiset PageRef} (h : Inv L K s) (pa : Nat) :
    (s.refs.map cell).count pa = s.holders pa := by
  have hslot : ∀ p ∈ Finset.univ, ((slotRefs (s.proc p)).map cell).count pa = s.slotHolders p pa := by
    intro p _
    unfold Sys.slotHolders
    cases hp : s.proc p with
    | none => rfl
    | some sp => exact (h.good p sp hp).count_refs pa
  rw [Sys.count_refs, Sys.holders, Finset.sum_congr rfl hslot]

/-- A page that a process does not own has one entry in it at most. -/
theorem Space.Good.count_le (h : sp.Good L) {pa : Nat} (hno : own pa ∉ sp.refs) : (sp.refs.map cell).count pa ≤ 1 := by
  have htables : (sp.pagetable.tables.map cell).count pa = 0 := by
    rw [Multiset.count_eq_zero]
    intro hin
    obtain ⟨r, hr, rfl⟩ := Multiset.mem_map.mp hin
    refine hno (Multiset.mem_add.mpr (.inl (Multiset.mem_add.mpr (.inl ?_))))
    rw [← tables_own _ r hr]
    exact hr
  have hframe : pa ≠ sp.trapframe := by
    rintro rfl
    exact hno (Multiset.mem_add.mpr (.inr (Multiset.mem_singleton_self _)))
  have hone := Multiset.nodup_iff_count_le_one.mp h.shape.nodup pa
  rw [h.count_refs, h.leaves_eq, Space.owners, htables, if_neg hframe]
  exact hone

/-- A page has no more holders than there are processes. -/
theorem Inv.count_le (h : Inv L 0 s) (pa : Nat) : ((s.refs + 0).map cell).count pa ≤ NPROC := by
  by_cases hin : Lib.Ref.own pa ∈ s.refs + 0
  · have hone := h.owns.excl pa hin
    rw [hone]
    decide
  rw [add_zero] at hin ⊢
  have hslot : ∀ p, ((slotRefs (s.proc p)).map cell).count pa ≤ 1 := by
    intro p
    cases hp : s.proc p with
    | none => exact Nat.zero_le 1
    | some sp =>
      refine (h.good p sp hp).count_le fun hmem => hin ?_
      rw [s.refs_split p, hp]
      exact Multiset.mem_add.mpr (.inl (Multiset.mem_add.mpr (.inl hmem)))
  have hker : s.kernel.count pa = 0 := by
    rw [List.count_eq_zero]
    intro hmem
    exact hin (Multiset.mem_add.mpr (.inr (Multiset.mem_coe.mpr (List.mem_map_of_mem hmem))))
  have hsum := Finset.sum_le_card_nsmul Finset.univ
    (fun p => ((slotRefs (s.proc p)).map cell).count pa) 1 fun p _ => hslot p
  rw [Sys.count_refs, hker, add_zero]
  exact hsum

/-- **The counters are exact** as long as no `fork` fails in `uvmcopy`, and no operation panics. -/
theorem counts_exact (h : ReachableNoFail L s) : (∀ pa ∈ L.pages, s.km.num_ref_to_page (pa / PGSIZE) = s.holders pa
        ∧ (pa ∈ s.km.freelist ↔ s.holders pa = 0)) ∧ ∀ op, ∃ s', step L s op = .ok s' := by
  have hinv := h.inv
  have hown : s.km.Owns L s.refs := hinv.owns.of_eq (add_zero _).symm
  refine ⟨fun pa hpa => ?_, fun op => ?_⟩
  · have hcount := hown.count hpa
    rw [hinv.count_holders] at hcount
    refine ⟨hcount, ?_⟩
    rw [← Int.natCast_eq_zero, ← hcount]
    exact (hown.tracks.cnt_zero_iff (Finset.mem_coe.mpr hpa)).symm
  · rcases hinv.step op with ⟨-, pa, hmax⟩ | ⟨s', -, hok, -⟩
    · have hle := hinv.count_le pa
      simp only [INT_MAX, NPROC] at hmax hle
      omega
    · exact ⟨s', hok⟩

theorem counts_exact_forked :
    ∃ s sp sc, ReachableNoFail Layout.small s ∧ (s.proc firstSlot = some sp ∧ s.proc secondSlot = some sc)
      ∧ (∀ pa ∈ Layout.small.pages, s.km.num_ref_to_page (pa / PGSIZE) = s.holders pa
        ∧ (pa ∈ s.km.freelist ↔ s.holders pa = 0)) ∧ ∀ op, ∃ s', step Layout.small s op = .ok s' := by
  obtain ⟨s, sp, sc, hs, hp, hc, -⟩ := forked_reachable
  exact ⟨s, sp, sc, hs, ⟨hp, hc⟩, counts_exact hs⟩

end Counts

end Xv6.Spaces
