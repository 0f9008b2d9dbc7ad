/-
  Xv6.Proc.AlarmInv — who owns `trapframe_backup` (`kernel/proc.c`,
  `kernel/trap.c`, `kernel/syscall.c`).

  `freeproc` frees the backup of the slot and leaves the pointer, and
  `allocproc` does not initialise it.  So the pages are owned as one expects in
  the runs in which no process is reaped that died between the delivery of an
  alarm and its `sigreturn` (`reapsClean`), and in no others.

  The invariant lists every reference to every page: those of the rest of the
  kernel, the lost ones, and for each slot its trapframe and its backup.  The
  backup of a slot holds the words of the trapframe its last delivery saved.

  Main results:
    * `Inv.step`             — every step keeps the invariant,
    * `sigreturn_spec`       — what `sigreturn` does with a backup,
    * `backup_owned`         — the backup of a slot is a page of its own.
-/
import Xv6.Proc.AlarmReentry

namespace Xv6.AlarmSys

open Function (update update_of_ne update_self)
open Lib.Ref (own)
open Lib (word)
open Multiset (mem_singleton_self mem_map_of_mem mem_add singleton_add)

variable {L : Layout} {K : KernelAddrs} {s s' : AlarmSys} {p q c : Slot} {a b : Nat}

/-! ## §1. The invariant. -/

/-- The pages the other slots refer to. -/
def others (s : AlarmSys) (p : Slot) : Multiset PageRef := ∑ q ∈ Finset.univ.erase p, (s.proc q).refs

/-- Every reference there is. -/
def pages (s : AlarmSys) : Multiset PageRef := s.rest + s.lost + ∑ q, (s.proc q).refs

/-- A used slot has a trapframe, and a backup exactly while there is a saved frame, with its words. -/
structure Backed (km : Kmem) (x : AlarmProc) : Prop where
  unused : x.state = .UNUSED → x.trapframe = none ∧ x.trapframe_backup = none
  live : x.state ≠ .UNUSED → x.trapframe ≠ none
  clear : x.saved = none → x.trapframe_backup = none
  frame : ∀ tf, x.saved = some tf →
    ∃ b, x.trapframe_backup = some b ∧ ∀ k < TFWORDS, word (km.mem b) k = word tf k

/-- The references are those of the processes, and every slot has its pages. -/
structure Inv (L : Layout) (s : AlarmSys) : Prop where
  owns : s.km.Owns L s.pages
  slot : ∀ p, Backed s.km (s.proc p)

theorem pages_split (s : AlarmSys) (p : Slot) : s.pages = s.rest + s.lost + (s.proc p).refs + s.others p := by
  unfold pages others
  rw [← Finset.add_sum_erase _ _ (Finset.mem_univ p), ← add_assoc]

variable {x : AlarmProc}

theorem others_of_update (h : s'.proc = update s.proc p x) : s'.others p = s.others p := by
  apply Finset.sum_congr rfl
  intro q hq
  rw [h, update_of_ne (Finset.ne_of_mem_erase hq)]

theorem mem_others {r : PageRef} (hq : q ≠ p) (hr : r ∈ (s.proc q).refs) : r ∈ s.others p :=
  Multiset.mem_sum.mpr ⟨q, Finset.mem_erase.mpr ⟨hq, Finset.mem_univ q⟩, hr⟩

theorem mem_refs_trapframe (h : x.trapframe = some a) : own a ∈ x.refs := by
  rw [AlarmProc.refs, h]
  exact Multiset.mem_add.mpr (.inl (mem_singleton_self _))

theorem mem_refs_backup (h : x.trapframe_backup = some b) : own b ∈ x.refs := by
  rw [AlarmProc.refs, h]
  exact Multiset.mem_add.mpr (.inr (mem_singleton_self _))

variable {km : Kmem}

/-- Only the contents of the backup matter. -/
theorem Backed.congr {km' : Kmem} (h : Backed km x)
    (hmem : ∀ b, x.trapframe_backup = some b → km'.mem b = km.mem b) : Backed km' x where
  unused := h.unused
  live := h.live
  clear := h.clear
  frame := by
    intro tf htf
    obtain ⟨b, hb, hword⟩ := h.frame tf htf
    refine ⟨b, hb, fun k hk => ?_⟩
    rw [hmem b hb]
    exact hword k hk

/-- Without a backup nothing is saved. -/
theorem Backed.saved_none (h : Backed km x) (hb : x.trapframe_backup = none) : x.saved = none := by
  cases hsaved : x.saved with
  | none => rfl
  | some tf =>
    obtain ⟨b, hb', -⟩ := h.frame tf hsaved
    rw [hb] at hb'
    cases hb'

variable (h : s.Inv L)
include h

/-- **The rule for one slot**: it exchanges its pages, the others keep theirs. -/
theorem Inv.moves (hproc : s'.proc = update s.proc p x)
    (hm : Moves L s.km s'.km (s.rest + s.lost + (s.proc p).refs) (s'.rest + s'.lost + x.refs) (s.others p))
    (hx : Backed s'.km x) : s'.Inv L where
  owns := by
    rw [pages_split s' p, others_of_update hproc, hproc, update_self]
    exact hm.after
  slot := by
    intro q
    by_cases hq : q = p
    · rw [hq, hproc, update_self]
      exact hx
    · rw [hproc, update_of_ne hq]
      exact (h.slot q).congr fun b hb => hm.same _ (mem_others hq (mem_refs_backup hb))

/-- The rule for the rest of the kernel. -/
theorem Inv.movesRest (hproc : s'.proc = s.proc) (hlost : s'.lost = s.lost)
    (hm : Moves L s.km s'.km s.rest s'.rest (s.lost + ∑ q, (s.proc q).refs)) : s'.Inv L where
  owns := by
    unfold pages
    rw [hproc, hlost, add_assoc]
    exact hm.after
  slot := by
    intro q
    rw [hproc]
    refine (h.slot q).congr fun b hb => hm.same (own b) (Multiset.mem_add.mpr (.inr ?_))
    exact Multiset.mem_sum.mpr ⟨q, Finset.mem_univ q, mem_refs_backup hb⟩

/-- The references of all, seen from one slot. -/
theorem Inv.owns_at (p : Slot) : s.km.Owns L (s.rest + s.lost + (s.proc p).refs + s.others p) := h.owns.of_eq (pages_split s p).symm

omit h

/-! ## §2. Pages of one's own. -/

/-- The page is allocated, has one reference, and nobody but slot `p` refers to it. -/
structure OwnedBy (L : Layout) (s : AlarmSys) (p : Slot) (b : Nat) : Prop where
  page : b ∈ L.pages
  allocated : b ∉ s.km.freelist
  single : s.km.num_ref_to_page (b / PGSIZE) = 1
  kernel : ∀ r ∈ s.rest + s.lost, r.cell ≠ b
  slots : ∀ q, q ≠ p → (s.proc q).trapframe ≠ some b ∧ (s.proc q).trapframe_backup ≠ some b

variable {R : Multiset PageRef}

theorem OwnedBy.of_owns (h : s.km.Owns L ({own b} + R)) (hrest : s.rest + s.lost ⊆ R)
    (hothers : s.others p ⊆ R) : OwnedBy L s p b := by
  have halone := h.alone
  have hmem : own b ∈ ({own b} + R : Multiset PageRef) := Multiset.mem_add.mpr (.inl (mem_singleton_self _))
  have hne : ∀ r ∈ R, r.cell ≠ b := fun r hr he => halone (he ▸ mem_map_of_mem _ hr)
  refine ⟨h.mem_pages hmem, fun hfree => ?_, ?_, fun r hr => hne r (hrest hr), fun q hq => ⟨fun htf => ?_, fun hb => ?_⟩⟩
  · exact ((h.tracks.mem_free b).mp hfree).2 (mem_map_of_mem Lib.Ref.cell hmem)
  · have hcount : s.km.num_ref_to_page (b / PGSIZE) = _ := h.count (h.mem_pages hmem)
    rw [hcount]
    exact_mod_cast h.excl b hmem
  · exact hne _ (hothers (mem_others hq (mem_refs_trapframe htf))) rfl
  · exact hne _ (hothers (mem_others hq (mem_refs_backup hb))) rfl

include h

variable (htf : (s.proc p).trapframe = some a)
include htf

theorem Inv.trapframe_owned : OwnedBy L s p a := by
  have howns := h.owns_at p
  rw [AlarmProc.refs, htf, optRef] at howns
  have howns : s.km.Owns L ({own a} + (s.rest + s.lost + optRef (s.proc p).trapframe_backup + s.others p)) :=
    howns.of_eq (by abel)
  refine OwnedBy.of_owns howns (fun r hr => ?_) (fun r hr => ?_)
  · simp only [mem_add] at hr ⊢
    exact .inl (.inl hr)
  · exact Multiset.mem_add.mpr (.inr hr)

omit htf

/-- The references without the backup of one slot. -/
theorem Inv.owns_backup (hb : (s.proc p).trapframe_backup = some b) :
    s.km.Owns L ({own b} + (s.rest + s.lost + optRef (s.proc p).trapframe + s.others p)) := by
  have howns := h.owns_at p
  rw [AlarmProc.refs, hb, optRef] at howns
  exact howns.of_eq (by abel)

theorem Inv.backup_alone (hb : (s.proc p).trapframe_backup = some b) : OwnedBy L s p b := by
  refine OwnedBy.of_owns (h.owns_backup hb) (fun r hr => ?_) (fun r hr => ?_)
  · simp only [mem_add] at hr ⊢
    exact .inl (.inl hr)
  · exact Multiset.mem_add.mpr (.inr hr)

/-- The two pages of one slot are different. -/
theorem Inv.pages_ne (hb : (s.proc p).trapframe_backup = some b) : (s.proc p).trapframe ≠ some b := by
  intro htf
  have halone := (h.owns_backup hb).alone
  rw [htf, optRef] at halone
  apply halone
  simp

include htf

/-- No trapframe is a backup. -/
theorem Inv.trapframe_ne_backup
    (hb : (s.proc q).trapframe_backup = some b) : a ≠ b := by
  rintro rfl
  by_cases hq : q = p
  · exact h.pages_ne hb (hq ▸ htf)
  · exact ((h.trapframe_owned htf).slots q hq).2 hb

omit htf

omit h in
/-- A process writes its trapframe. -/
theorem Inv.setFrame {page : Page} (h : s.Inv L) (htf : (s.proc p).trapframe = some a) : (s.setPage a page).Inv L where
  owns := h.owns
  slot := by
    intro q
    refine (h.slot q).congr fun b hb => ?_
    exact update_of_ne (h.trapframe_ne_backup htf hb).symm _ _

/-- A slot changes without its pages. -/
theorem Inv.setFields (htf : x.trapframe = (s.proc p).trapframe)
    (hb : x.trapframe_backup = (s.proc p).trapframe_backup) (hsaved : x.saved = (s.proc p).saved)
    (hstate : x.state = .UNUSED ↔ (s.proc p).state = .UNUSED) : (s.setProc p x).Inv L := by
  refine h.moves rfl ?_ ?_
  · have hrefs : x.refs = (s.proc p).refs := by rw [AlarmProc.refs, AlarmProc.refs, htf, hb]
    rw [hrefs]
    exact Moves.refl (h.owns_at p)
  have hp := h.slot p
  refine ⟨fun hu => ?_, fun hl => ?_, fun hs => ?_, fun tf hs => ?_⟩
  · rw [htf, hb]
    exact hp.unused (hstate.mp hu)
  · rw [htf]
    exact hp.live fun hu => hl (hstate.mpr hu)
  · rw [hb]
    exact hp.clear (hsaved ▸ hs)
  · rw [hb]
    exact hp.frame tf (hsaved ▸ hs)

omit h

/-! ## §3. The operations. -/

theorem setProc_self (s : AlarmSys) (p : Slot) (x : AlarmProc) : (s.setProc p x).proc p = x := update_self ..

theorem kfreeOpt_none (km : Kmem) : kfreeOpt L km none = .ok km := rfl

theorem kfreeOpt_some {km' : Kmem} (h : Xv6.kfree L km a = .ok km') : kfreeOpt L km (some a) = .ok km' := by
  dsimp only [kfreeOpt]
  rw [h]

/-- `kfree` of a pointer that is null or owned. -/
theorem kfreeOpt_spec (o : Option Nat) (h : km.Owns L (optRef o + R)) :
    ∃ km', kfreeOpt L km o = .ok km' ∧ Moves L km km' (optRef o) 0 R := by
  cases o with
  | none => exact ⟨km, kfreeOpt_none km, Moves.refl h⟩
  | some a =>
    obtain ⟨km', hk, hm⟩ := kfree_spec (r := own a) h
    exact ⟨km', kfreeOpt_some hk, hm⟩

include h

/-- **`freeproc`** frees the pages of the slot. -/
theorem freeproc_spec (c : Slot) :
    ∃ s', freeproc L s c = .ok s' ∧ s'.proc = update s.proc c (s.proc c).freed
      ∧ ((s.proc c).trapframe_backup = none → s'.Inv L) := by
  have howns : s.km.Owns L (optRef (s.proc c).trapframe
      + (optRef (s.proc c).trapframe_backup + (s.rest + s.lost + s.others c))) :=
    (h.owns_at c).of_eq (by unfold AlarmProc.refs; abel)
  obtain ⟨km₁, hk₁, hm₁⟩ := kfreeOpt_spec _ howns
  obtain ⟨km₂, hk₂, hm₂⟩ := kfreeOpt_spec (s.proc c).trapframe_backup (hm₁.after.of_eq (zero_add _).symm)
  have hrun : freeproc L s c = .ok ({ s with km := km₂ }.setProc c (s.proc c).freed) := by
    unfold freeproc
    rw [hk₁]
    dsimp only
    rw [hk₂]
  refine ⟨_, hrun, rfl, fun hb => h.moves (p := c) (x := (s.proc c).freed) rfl ?_ ?_⟩
  · have hm : Moves L s.km km₂ _ (0 + (s.rest + s.lost)) (s.others c) :=
      Moves.seq hm₁ hm₂ (optRef (s.proc c).trapframe_backup + (s.rest + s.lost)) (s.rest + s.lost)
        (add_assoc _ _ _).symm rfl (zero_add _) rfl rfl
    refine hm.of_eq (by unfold AlarmProc.refs; abel) ?_ rfl
    show s.rest + s.lost + (0 + optRef (s.proc c).trapframe_backup) = 0 + (s.rest + s.lost)
    rw [hb]
    show s.rest + s.lost + (0 + 0) = 0 + (s.rest + s.lost)
    abel
  · exact ⟨fun _ => ⟨rfl, hb⟩, fun hl => absurd rfl hl, fun _ => hb, nofun⟩

/-- A page from `kalloc` joins the pages of a slot. -/
theorem Inv.kalloc_at (p : Slot) : (∃ km, Xv6.kalloc s.km = (km, none) ∧ km = s.km) ∨
    ∃ b km, Xv6.kalloc s.km = (km, some b) ∧ km.mem = update s.km.mem b (fun _ => 5)
      ∧ Moves L s.km km (s.rest + s.lost + (s.proc p).refs) ({own b} + (s.rest + s.lost + (s.proc p).refs))
          (s.others p) := by
  obtain ⟨hk, -⟩ | ⟨b, km, hk, hm, hmem⟩ := kalloc_spec h.owns
  · exact .inl ⟨s.km, hk, rfl⟩
  · right
    have hm : Moves L s.km km 0 {own b} (s.rest + s.lost + (s.proc p).refs + s.others p) :=
      hm.of_eq rfl rfl (pages_split s p).symm
    exact ⟨b, km, hk, hmem, hm.frame.of_eq (zero_add _).symm rfl rfl⟩

omit h

/-- **`allocproc`** -/
theorem Inv.allocproc {ok : Bool} {r : Option Nat} (h : s.Inv L) (hrun : allocproc L s c ok = .ok (s', r)) :
    s'.Inv L ∧ ∀ b, r = some b → (s'.proc c).trapframe = some b ∧ (s'.proc c).state = .USED := by
  unfold AlarmSys.allocproc at hrun
  split at hrun
  · cases hrun
  rename_i hstate
  obtain ⟨htf, hb⟩ := (h.slot c).unused (not_not.mp fun hne => hstate (.inl hne))
  obtain ⟨km, hk, rfl⟩ | ⟨b, km, hk, -, hm⟩ := h.kalloc_at c
  · -- no page: the slot is freed as it is
    rw [hk] at hrun
    dsimp only at hrun
    have hinv : (s.setProc c { s.proc c with trapframe := none }).Inv L := h.setFields htf.symm rfl rfl Iff.rfl
    obtain ⟨s₁, hfree, -, hclean⟩ := freeproc_spec hinv c
    rw [hfree] at hrun
    cases hrun
    refine ⟨hclean ?_, nofun⟩
    rw [setProc_self]
    exact hb
  rw [hk] at hrun
  dsimp only at hrun
  have hinv : ({ s with km := km }.setProc c ((s.proc c).found b)).Inv L := by
    refine h.moves rfl (hm.of_eq rfl ?_ rfl) ⟨nofun, nofun, fun _ => hb, fun tf htf' => ?_⟩
    · show s.rest + s.lost + ({own b} + optRef (s.proc c).trapframe_backup)
          = {own b} + (s.rest + s.lost + (optRef (s.proc c).trapframe + optRef (s.proc c).trapframe_backup))
      rw [htf, hb]
      show s.rest + s.lost + ({own b} + 0) = {own b} + (s.rest + s.lost + (0 + 0))
      abel
    · have hnone := (h.slot c).saved_none hb
      have htf' : (s.proc c).saved = some tf := htf'
      rw [hnone] at htf'
      cases htf'
  split at hrun
  · cases hrun
    refine ⟨hinv, fun b' hb' => ?_⟩
    cases hb'
    rw [setProc_self]
    exact ⟨rfl, rfl⟩
  -- `proc_pagetable` failed: the page goes back
  obtain ⟨s₁, hfree, -, hclean⟩ := freeproc_spec hinv c
  rw [hfree] at hrun
  cases hrun
  refine ⟨hclean ?_, nofun⟩
  rw [setProc_self]
  exact hb

/-- The end of `fork` and of `userinit`: the new process gets its trapframe and runs. -/
theorem Inv.ready {page : Page} {m : UInt32} (h : s.Inv L) (htf : (s.proc c).trapframe = some b)
    (hstate : (s.proc c).state = .USED) :
    ((s.setPage b page).setProc c { s.proc c with state := .RUNNABLE, mask := m }).Inv L := by
  refine (h.setFrame htf).setFields rfl rfl rfl ⟨nofun, fun hu => ?_⟩
  have hu : (s.proc c).state = .UNUSED := hu
  rw [hstate] at hu
  cases hu

variable {env : CallEnv}

theorem Inv.fork {ret : UInt64} (h : s.Inv L) (hrun : AlarmSys.fork L s p a env = .ok (s', ret)) : s'.Inv L := by
  unfold AlarmSys.fork at hrun
  split at hrun
  · split at hrun
    · cases hrun
    · cases hrun
      exact h
  split at hrun
  · cases hrun
  · rename_i s₁ halloc
    cases hrun
    exact (h.allocproc halloc).1
  · rename_i s₁ b halloc
    cases hrun
    obtain ⟨hinv, hnew⟩ := h.allocproc halloc
    obtain ⟨htf, hstate⟩ := hnew b rfl
    exact hinv.ready htf hstate

include h

include htf

/-- **`sigreturn`** with a backup copies its user words to the trapframe and frees it. -/
theorem sigreturn_spec
    (hb : (s.proc p).trapframe_backup = some b) :
    ∃ km, AlarmSys.sigreturn L s p a
          = .ok ({ s with km := km }.setProc p ((s.proc p).returned (word (km.mem a) A0)))
      ∧ ({ s with km := km }.setProc p ((s.proc p).returned (word (km.mem a) A0))).Inv L
      ∧ ∀ k < TFWORDS, word (km.mem a) k
          = if isKernel k then word (s.km.mem a) k else word (s.km.mem b) k := by
  have ha : own a ∈ s.rest + s.lost + (s.proc p).refs := Multiset.mem_add.mpr (.inr (mem_refs_trapframe htf))
  have hb' : own b ∈ s.rest + s.lost + (s.proc p).refs := Multiset.mem_add.mpr (.inr (mem_refs_backup hb))
  let s₁ := s.setPage b (Lib.setWords (s.km.mem b) isKernel (word (s.km.mem a)))
  let s₂ := s₁.setPage a (Lib.copyWords (s₁.km.mem a) (s₁.km.mem b) TFWORDS)
  have hw : Moves L s.km s₂.km (s.rest + s.lost + (s.proc p).refs) (s.rest + s.lost + (s.proc p).refs) (s.others p) :=
    ((Moves.refl (h.owns_at p)).overwrite hb').overwrite ha
  have howns : s₂.km.Owns L ({own b} + (s.rest + s.lost + optRef (s.proc p).trapframe + s.others p)) := h.owns_backup hb
  obtain ⟨km, hk, hm⟩ := kfree_spec howns
  have hrun : AlarmSys.sigreturn L s p a
      = .ok ({ s with km := km }.setProc p ((s.proc p).returned (word (km.mem a) A0))) := by
    unfold AlarmSys.sigreturn
    rw [hb]
    dsimp only
    have hk : Xv6.kfree L s₂.km b = .ok km := hk
    rw [hk]
    rfl
  refine ⟨km, hrun, h.moves rfl ?_ ?_, fun k hk' => ?_⟩
  · refine Moves.seq hw hm 0 (s.rest + s.lost + optRef (s.proc p).trapframe) (zero_add _).symm rfl ?_ (add_zero _).symm ?_
    · show s.rest + s.lost + (optRef (s.proc p).trapframe + optRef (s.proc p).trapframe_backup) + 0 = _
      rw [hb]
      show s.rest + s.lost + (optRef (s.proc p).trapframe + {own b}) + 0 = _
      abel
    · show s.rest + s.lost + (optRef (s.proc p).trapframe + 0) = _
      abel
  · refine ⟨fun hu => ⟨((h.slot p).unused hu).1, rfl⟩, (h.slot p).live, fun _ => rfl, nofun⟩
  -- the trapframe page is not the one that was freed
  have hkept : km.mem a = s₂.km.mem a := by
    refine hm.same (own a) ?_
    rw [htf]
    simp [optRef]
  have ha₂ : s₂.km.mem a = Lib.copyWords (s₁.km.mem a) (s₁.km.mem b) TFWORDS := page_setPage ..
  have hb₁ : s₁.km.mem b = Lib.setWords (s.km.mem b) isKernel (word (s.km.mem a)) := page_setPage ..
  rw [hkept, ha₂, Lib.word_copyWords, if_pos hk', hb₁, Lib.word_setWords]

/-- **The delivery of an alarm.** -/
theorem Inv.alarm (hrun : s.alarm p a = .ok s') :
    s'.Inv L ∧ ((s.proc p).delivers = true → ∃ b, s'.proc p = (s.proc p).delivered b (s.km.mem a)) := by
  unfold AlarmSys.alarm at hrun
  dsimp only at hrun
  split at hrun
  · obtain ⟨km, hk, -⟩ | ⟨b, km, hk, hmem, hm⟩ := h.kalloc_at p
    · rw [hk] at hrun
      cases hrun
    rw [hk] at hrun
    cases hrun
    have hab : a ≠ b := by
      rintro rfl
      apply (hm.after.of_eq (add_assoc _ _ _).symm).alone
      refine mem_map_of_mem Lib.Ref.cell (a := own a) (Multiset.mem_add.mpr (.inl ?_))
      exact Multiset.mem_add.mpr (.inr (mem_refs_trapframe htf))
    have hpage : km.mem a = s.km.mem a := by rw [hmem, update_of_ne hab]
    refine ⟨h.moves rfl ?_ ?_, fun _ => ?_⟩
    · have hown : own b ∈ ({own b} + (s.rest + s.lost + (s.proc p).refs) : Multiset PageRef) :=
        Multiset.mem_add.mpr (.inl (mem_singleton_self _))
      have htf' : own a ∈ ({own b} + (s.rest + s.lost + (s.proc p).refs) : Multiset PageRef) :=
        Multiset.mem_add.mpr (.inr (Multiset.mem_add.mpr (.inr (mem_refs_trapframe htf))))
      refine ((hm.overwrite hown).overwrite htf').of_eq rfl ?_ rfl
      show s.rest + (optRef (s.proc p).trapframe_backup + s.lost) + (optRef (s.proc p).trapframe + {own b})
        = {own b} + (s.rest + s.lost + (optRef (s.proc p).trapframe + optRef (s.proc p).trapframe_backup))
      abel
    · have hlive : (s.proc p).state ≠ .UNUSED := by
        intro hu
        rw [((h.slot p).unused hu).1] at htf
        cases htf
      refine ⟨fun hu => absurd hu hlive, fun _ => (h.slot p).live hlive, nofun, fun tf hs => ⟨b, rfl, fun k hk' => ?_⟩⟩
      cases hs
      show word (update (update km.mem b _) a _ b) k = word (s.km.mem a) k
      rw [update_of_ne hab.symm, update_self, Lib.word_copyWords, if_pos hk', hpage]
    · exact ⟨b, setProc_self ..⟩
  · rename_i hdel
    refine ⟨?_, fun hd => absurd hd hdel⟩
    split at hrun
    · cases hrun
      exact h.setFields rfl rfl rfl Iff.rfl
    · cases hrun
      exact h

omit htf

omit h

/-! ## §4. The steps. -/

/-- `wait` and `waitx` reap no process that died between the delivery of an alarm and its `sigreturn`. -/
def reapsClean (s : AlarmSys) : AlarmStep → Bool
  | .ecall _ regs _ env _ =>
    !(callNum regs == SYS_wait || callNum regs == SYS_waitx)
      || env.child.all fun c => (s.proc c).trapframe_backup.isNone
  | _ => true

/-- A live process keeps its trapframe page. -/
theorem Touch.trapframe {x : AlarmStep} {y y' : AlarmProc} (h : Touch x q y y') (hy : y.state = .RUNNABLE) :
    y'.trapframe = y.trapframe := by
  cases h with
  | freed hdead =>
    obtain hdead | hdead := hdead
    · rw [hy] at hdead
      cases hdead
    · rw [hy] at hdead
      cases hdead
  | started a m hdead =>
    rw [hy] at hdead
    cases hdead
  | _ => rfl

variable {num : UInt32}

theorem Inv.dispatch {r : Option UInt64} (h : s.Inv L) (htf : (s.proc p).trapframe = some a)
    (hclean : num = SYS_wait ∨ num = SYS_waitx → ∀ c, env.child = some c → (s.proc c).trapframe_backup = none)
    (hrun : AlarmSys.dispatch L s p a num env = .ok (s', r)) : s'.Inv L := by
  have hlive : (s.proc p).state ≠ .UNUSED := by
    intro hu
    rw [((h.slot p).unused hu).1] at htf
    cases htf
  unfold AlarmSys.dispatch at hrun
  split at hrun
  · split at hrun
    · cases hrun
    · rename_i s₁ ret hfork
      cases hrun
      exact h.fork hfork
  split at hrun
  · split at hrun
    · cases hrun
    · cases hrun
      exact h.setFields rfl rfl rfl ⟨nofun, fun hu => absurd hu hlive⟩
  split at hrun
  · rename_i hwait
    split at hrun
    · cases hrun
      exact h
    rename_i c hchild
    split at hrun
    · cases hrun
    · obtain ⟨s₁, hfree, -, hinv⟩ := freeproc_spec h c
      rw [hfree] at hrun
      cases hrun
      exact hinv (hclean hwait c hchild)
  split at hrun
  · split at hrun
    · cases hrun
      exact h.setFrame htf
    · cases hrun
      exact h
  split at hrun
  · cases hrun
    exact h.setFields rfl rfl rfl Iff.rfl
  split at hrun
  · cases hrun
    exact h.setFields rfl rfl rfl Iff.rfl
  split at hrun
  · split at hrun
    · cases hrun
    rename_i s₁ hret
    cases hrun
    cases hb : (s.proc p).trapframe_backup with
    | none =>
      unfold AlarmSys.sigreturn at hret
      rw [hb] at hret
      cases hret
    | some b =>
      obtain ⟨km, hok, hinv, -⟩ := sigreturn_spec h htf hb
      rw [hok] at hret
      cases hret
      exact hinv
  · cases hrun
    exact h

theorem Inv.setA0 {v : UInt64} (h : s.Inv L) (htf : (s.proc p).trapframe = some a) : (s.setA0 a v).Inv L := h.setFrame htf

theorem Inv.trace {v w : UInt64} (h : s.Inv L) : (s.trace p num v w).Inv L := by
  unfold AlarmSys.trace
  split
  · exact ⟨h.owns, h.slot⟩
  · exact h

include h

include htf

theorem Inv.patchA0 : (s.patchA0 p a num).Inv L := by
  unfold AlarmSys.patchA0
  split
  · exact h.setA0 htf
  · exact h

variable {tp : UInt64}

theorem Inv.usertrapret : (s.usertrapret K p a tp).Inv L := h.setFrame htf

omit htf

omit h in
/-- **`syscall`**, and that the process still has its trapframe when it returns. -/
theorem Inv.syscall {r : Bool} (h : s.Inv L) (hstate : (s.proc p).state = .RUNNABLE) (htf : (s.proc p).trapframe = some a)
    (hclean : (word (s.km.mem a) A7).toUInt32 = SYS_wait ∨ (word (s.km.mem a) A7).toUInt32 = SYS_waitx →
      ∀ c, env.child = some c → (s.proc c).trapframe_backup = none)
    {x : AlarmStep} (hx : Calls x p (word (s.km.mem a) A7).toUInt32)
    (hrun : AlarmSys.syscall L s p a env = .ok (s', r)) : s'.Inv L ∧ (s'.proc p).trapframe = some a := by
  have hkept : (s'.proc p).trapframe = some a := ((syscall_touch hx hrun p).trapframe hstate).trans htf
  refine ⟨?_, hkept⟩
  unfold AlarmSys.syscall at hrun
  dsimp only at hrun
  split at hrun
  · split at hrun
    · cases hrun
    · rename_i s₁ hdis
      cases hrun
      exact h.dispatch htf hclean hdis
    rename_i s₁ ret hdis
    cases hrun
    have htf₁ : (s₁.proc p).trapframe = some a := ((dispatch_touch hx hdis p).trapframe hstate).trans htf
    refine (((h.dispatch htf hclean hdis).setA0 htf₁).trace).patchA0 ?_
    rw [proc_trace]
    exact htf₁
  · cases hrun
    exact (h.setA0 htf).patchA0 htf

variable {regs : Nat → UInt64} {epc : UInt64}

theorem Inv.enter (henter : s.enter p regs epc = .ok (s', a)) : s'.Inv L := by
  obtain ⟨-, htf, rfl⟩ := enter_ok henter
  exact h.setFrame htf

theorem Inv.ecall (hclean : s.reapsClean (.ecall p regs epc env tp) = true)
    (hrun : AlarmSys.step L K s (.ecall p regs epc env tp) = .ok s') : s'.Inv L := by
  obtain ⟨s₁, b, s₂, r, henter, hsys, rfl⟩ := ecall_ok hrun
  obtain ⟨hstate, htf, -⟩ := enter_ok henter
  rw [← enter_proc henter] at hstate htf
  have hnum := enter_num henter
  have hcall : s₂.Inv L ∧ (s₂.proc p).trapframe = some b := by
    refine (h.enter henter).syscall hstate htf (fun hwait c hchild => ?_) ⟨regs, epc, env, tp, rfl, hnum.symm⟩ hsys
    rw [hnum] at hwait
    rw [enter_proc henter]
    unfold reapsClean at hclean
    obtain hwait | hwait := hwait
    · simpa [hwait, hchild] using hclean
    · simpa [hwait, hchild] using hclean
  split
  · exact hcall.1.usertrapret hcall.2
  · exact hcall.1

theorem Inv.timer (hrun : AlarmSys.step L K s (.timer p regs epc tp) = .ok s') : s'.Inv L := by
  obtain ⟨s₁, b, s₂, henter, halarm, rfl⟩ := timer_ok hrun
  obtain ⟨hstate, htf, -⟩ := enter_ok henter
  rw [← enter_proc henter] at hstate htf
  refine ((h.enter henter).alarm htf halarm).1.usertrapret ?_
  exact ((alarm_touch ⟨regs, epc, tp, rfl⟩ halarm p).trapframe hstate).trans htf

omit h

/-- The rest of the kernel has its references on the list. -/
theorem Inv.owns_rest {r : PageRef} (h : s.Inv L) (hr : r ∈ s.rest) :
    s.km.Owns L ({r} + (s.rest.erase r + (s.lost + ∑ q, (s.proc q).refs))) := by
  have hcons : {r} + s.rest.erase r = s.rest := by rw [singleton_add, Multiset.cons_erase hr]
  refine h.owns.of_eq ?_
  rw [← add_assoc, hcons, pages, add_assoc]

/-- **One step** keeps the invariant. -/
theorem Inv.step {x : AlarmStep} (h : s.Inv L) (hclean : s.reapsClean x = true) (hrun : AlarmSys.step L K s x = .ok s') :
    s'.Inv L := by
  cases x with
  | userinit c =>
    dsimp only [AlarmSys.step] at hrun
    split at hrun
    · cases hrun
    · cases hrun
    · rename_i s₁ b halloc
      cases hrun
      obtain ⟨hinv, hnew⟩ := h.allocproc halloc
      obtain ⟨htf, hstate⟩ := hnew b rfl
      exact hinv.ready htf hstate
  | ecall p regs epc env tp => exact h.ecall hclean hrun
  | timer p regs epc tp => exact h.timer hrun
  | trap p regs epc tp =>
    obtain ⟨s₁, b, henter, rfl⟩ := trap_ok hrun
    have htf := (enter_ok henter).2.1
    rw [← enter_proc henter] at htf
    exact (h.enter henter).usertrapret htf
  | killed p =>
    dsimp only [AlarmSys.step] at hrun
    split at hrun
    · cases hrun
    rename_i hstate
    split at hrun
    · cases hrun
    · cases hrun
      refine h.setFields rfl rfl rfl ⟨nofun, fun hu => ?_⟩
      rw [not_not.mp hstate] at hu
      cases hu
  | kalloc =>
    dsimp only [AlarmSys.step] at hrun
    obtain ⟨hk, -⟩ | ⟨b, km, hk, hm, -⟩ := kalloc_spec h.owns
    · rw [hk] at hrun
      cases hrun
      exact h
    · rw [hk] at hrun
      cases hrun
      have hm : Moves L s.km km 0 {own b} (s.rest + (s.lost + ∑ q, (s.proc q).refs)) :=
        hm.of_eq rfl rfl (add_assoc _ _ _).symm
      exact h.movesRest rfl rfl (hm.frame.of_eq (zero_add _).symm rfl rfl)
  | kfree r =>
    dsimp only [AlarmSys.step] at hrun
    split at hrun
    · rename_i hr
      obtain ⟨km, hk, hm⟩ := kfree_spec (h.owns_rest hr)
      rw [hk] at hrun
      cases hrun
      refine h.movesRest rfl rfl (hm.frame.of_eq ?_ (zero_add _).symm rfl)
      rw [singleton_add, Multiset.cons_erase hr]
    · cases hrun
  | increase_num_ref r =>
    dsimp only [AlarmSys.step] at hrun
    split at hrun
    · rename_i hr
      split at hrun
      · cases hrun
      · rename_i km hk
        cases hrun
        obtain ⟨hm, -⟩ := increase_num_ref_moves (h.owns_rest hr) hk
        refine h.movesRest rfl rfl (hm.frame.of_eq ?_ rfl rfl)
        rw [singleton_add, Multiset.cons_erase hr]
    · cases hrun
  | write r page =>
    obtain ⟨hr, rfl⟩ := Lib.guard_ok hrun
    refine ⟨h.owns, fun q => (h.slot q).congr fun b hb => update_of_ne ?_ _ _⟩
    have hne := (h.backup_alone hb).kernel r (Multiset.mem_add.mpr (.inl hr))
    exact hne.symm

theorem Init.inv (h : Init L s) : s.Inv L := by
  obtain ⟨⟨ram, hk⟩, hrest, hlost, hproc⟩ := h
  obtain ⟨km, hk', howns⟩ := kinit_spec L ram
  rw [hk] at hk'
  cases hk'
  refine ⟨howns.of_eq ?_, fun p => ?_⟩
  · unfold pages
    rw [hrest, hlost, Finset.sum_eq_zero]
    · rfl
    · intro p _
      rw [hproc p]
      rfl
  · rw [hproc p]
    exact ⟨fun _ => ⟨rfl, rfl⟩, fun hl => absurd rfl hl, fun _ => rfl, nofun⟩

/-- The runs in which every process reaped had no alarm outstanding. -/
def CleanReach (L : Layout) (K : KernelAddrs) : AlarmSys → Prop :=
  Lib.Reach (Init L) (fun s x => s.reapsClean x = true) (step L K)

theorem CleanReach.inv (h : CleanReach L K s) : s.Inv L :=
  h.invariant (fun _ hs => hs.inv) fun _ _ _ hs hclean hrun => hs.step hclean hrun

/-! ## §5. Who owns the backup. -/

/-- **The backup of a slot is a page of its own** in the runs that reap no process inside its handler.  An unused slot
has none, so `freeproc` and `sigreturn`, which run after a trap has saved the user context, free only pages of the slot
and do not panic. -/
theorem backup_owned (h : CleanReach L K s) : (∀ p, (s.proc p).state = .UNUSED → (s.proc p).trapframe_backup = none)
      ∧ (∀ p b, (s.proc p).trapframe = some b ∨ (s.proc p).trapframe_backup = some b → OwnedBy L s p b)
      ∧ (∀ p b, (s.proc p).trapframe_backup = some b → (s.proc p).trapframe ≠ some b)
      ∧ ∀ p regs epc s₁ a, s.enter p regs epc = .ok (s₁, a) → (∀ c, ∃ s', freeproc L s₁ c = .ok s')
            ∧ ((s.proc p).trapframe_backup ≠ none → ∃ s', sigreturn L s₁ p a = .ok s') := by
  have hinv := h.inv
  refine ⟨fun p hu => ((hinv.slot p).unused hu).2, fun p b hb => ?_, fun p b hb => hinv.pages_ne hb,
    fun p regs epc s₁ a henter => ⟨fun c => ?_, fun hback => ?_⟩⟩
  · obtain hb | hb := hb
    · exact hinv.trapframe_owned hb
    · exact hinv.backup_alone hb
  · obtain ⟨s', hfree, -⟩ := freeproc_spec (hinv.enter henter) c
    exact ⟨s', hfree⟩
  · have htf := (enter_ok henter).2.1
    rw [← enter_proc henter] at htf hback
    obtain ⟨b, hb⟩ := Option.ne_none_iff_exists'.mp hback
    obtain ⟨km, hrun, -⟩ := sigreturn_spec (hinv.enter henter) htf hb
    exact ⟨_, hrun⟩

/-- A child of `init`. -/
def child : Slot := 1

/-- A system call that finds the slot. -/
def envOf (c : Slot) : CallEnv := ⟨some c, true, 0, 0, 0⟩

/-- `init` forks a child, and the child gets an alarm. -/
def childAlarm : List AlarmStep :=
  [.userinit initproc, .ecall initproc (callRegs 1 0 0) 0 (envOf child) 0, .ecall child (callRegs 23 1 64) 4 noEnv 0,
    .timer child (fun _ => 7) 8 0]

theorem backup_owned_childAlarm : ∃ s, CleanReach Layout.small someAddrs s
      ∧ ∃ b, (s.proc child).trapframe_backup = some b ∧ OwnedBy Layout.small s child b := by
  obtain ⟨s, hs, hend⟩ := reach_of_boot Layout.small someAddrs (fun s x => s.reapsClean x = true) childAlarm
    (fun s => (s.proc child).trapframe_backup ≠ none) (by decide +kernel)
  obtain ⟨b, hb⟩ := Option.ne_none_iff_exists'.mp (decide_eq_true_eq.mp hend)
  exact ⟨s, hs, b, hb, (backup_owned hs).2.1 child b (.inr hb)⟩

/-- **A child that exits in its handler** leaves its slot with a backup that was freed. -/
theorem freed_backup_kept : ∃ s, Lib.Reach (Init Layout.small) (fun _ _ => True) (step Layout.small someAddrs) s
      ∧ (s.proc child).state = .UNUSED ∧ ∃ b ∈ s.km.freelist, (s.proc child).trapframe_backup = some b := by
  obtain ⟨s, hs, hend⟩ := reach_of_boot Layout.small someAddrs (fun _ _ => True)
    (childAlarm ++ [.ecall child (callRegs 2 0 0) 64 noEnv 0, .ecall initproc (callRegs 3 0 0) 4 (envOf child) 0])
    (fun s => (s.proc child).state = .UNUSED ∧ ∃ b ∈ s.km.freelist, (s.proc child).trapframe_backup = some b)
    (by decide +kernel)
  exact ⟨s, hs, decide_eq_true_eq.mp hend⟩

end Xv6.AlarmSys
