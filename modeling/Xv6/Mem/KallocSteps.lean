/-
  Xv6.Mem.KallocSteps — the allocator on several CPUs (`kernel/kalloc.c`).

  `Xv6.Mem.Kalloc` has each function in one piece.  Here they are cut where
  `kmem.lock` is taken and released: `kfree` tests the count before it takes
  the lock, and when the count reaches 0 it lets go of the lock and takes it
  again to push the page.  In between the page is on no list and nobody
  refers to it; only the thread in `kfree` knows it.

  `refs` records the references that were handed out and not given back.

  Main results:
    * `kalloc_parts`, `kfree_parts` — the parts in a row are the functions,
    * `page_conservation` — where each page is, in every interleaving in
      which no `kfree` is overtaken between its test and its lock,
    * `kfree_overtaken` — a run in which one is.
-/
import Xv6.Mem.Kalloc
import Xv6.Lib.Runs

namespace Xv6

open Function (update update_of_ne update_self)

/-! ## §1. The parts of the functions. -/

/-- `kalloc` under the lock -/
def kallocSection (km : Kmem) : Kmem × Option Nat :=
  match km.freelist with
  | [] => (km, none)
  | r :: next =>
    if km.num_ref_to_page (r / PGSIZE) ≠ 0 then (km, none)
    else
      ({ km with
          num_ref_to_page := update km.num_ref_to_page (r / PGSIZE) 1,
          freelist := next }, some r)

/-- The tests of `kfree`, before it takes the lock. -/
def kfreeCheck (L : Layout) (km : Kmem) (pa : Nat) : Result Unit :=
  if ¬ L.inRange pa then .error (.panic "decrease_num_ref")
  else if km.num_ref_to_page (pa / PGSIZE) ≤ 0 then
    .error (.panic "decrease_num_ref: num_ref_to_page[pa/PGSIZE] == 0")
  else .ok ()

/-- `kfree` under the lock: one reference less, and whether it was the last -/
def kfreeSection (km : Kmem) (pa : Nat) : Kmem × Bool :=
  let n := km.num_ref_to_page (pa / PGSIZE) - 1
  ({ km with num_ref_to_page := update km.num_ref_to_page (pa / PGSIZE) n }, n = 0)

/-- `kfree_original` up to the lock: the test and the junk -/
def kfreeJunk (L : Layout) (km : Kmem) (pa : Nat) : Result Kmem :=
  if ¬ L.inRange pa then .error (.panic "kfree") else .ok (km.memset pa 1)

/-- `kfree_original` under the lock -/
def pushSection (km : Kmem) (pa : Nat) : Kmem := { km with freelist := pa :: km.freelist }

theorem kalloc_parts (km : Kmem) :
    kalloc km = match kallocSection km with
      | (km', some r) => (km'.memset r 5, some r)
      | (km', none) => (km', none) := by
  unfold kalloc kallocSection
  cases km.freelist with
  | nil => rfl
  | cons r next =>
    dsimp only
    split <;> rfl

theorem kfree_parts (L : Layout) (km : Kmem) (pa : Nat) :
    kfree L km pa = (kfreeCheck L km pa >>= fun _ =>
      if (kfreeSection km pa).2 then
        kfreeJunk L (kfreeSection km pa).1 pa >>= fun km' => .ok (pushSection km' pa)
      else .ok (kfreeSection km pa).1) := by
  unfold kfree kfreeCheck kfreeSection
  by_cases hin : L.inRange pa = true
  · simp only [hin, not_true_eq_false, if_false]
    split
    · rfl
    simp only [Result.ok_bind, decide_eq_true_eq]
    split
    · unfold kfree_original kfreeJunk
      simp only [hin, not_true_eq_false, if_false, Result.ok_bind]
      rfl
    · rfl
  · simp only [hin, Bool.false_eq_true, not_false_eq_true, if_true]
    rfl

/-! ## §2. The threads. -/

/-- Where a thread is in `kalloc` or `kfree`. -/
inductive KPc where
  | idle
  /-- `kalloc` has the page and has not filled it -/
  | taken (pa : Nat)
  /-- `kfree` has tested the page and does not have the lock yet -/
  | checked (pa : Nat)
  /-- `kfree` has counted down to 0 and released the lock -/
  | dropped (pa : Nat)
  /-- `kfree_original` has filled the page and does not have the lock yet -/
  | filled (pa : Nat)
  deriving DecidableEq

/-- The allocator and the threads that use it. -/
structure KmemSys (ι : Type) where
  km : Kmem
  pc : ι → KPc
  /-- the references handed out and not given back -/
  refs : Multiset Nat

/-- The critical sections, and what is done outside of the lock. -/
inductive KmemStep (ι : Type) where
  | kalloc (i : ι)
  | fill (i : ι)
  | increase_num_ref (i : ι) (pa : Nat)
  | kfree (i : ι) (pa : Nat)
  | drop (i : ι)
  | junk (i : ι)
  | push (i : ι)

namespace KmemSys

variable {ι : Type} [DecidableEq ι] (L : Layout)

/-- A thread comes to another place. -/
def setPc (s : KmemSys ι) (i : ι) (x : KPc) : KmemSys ι := { s with pc := update s.pc i x }

/-- The count of a page. -/
def count (s : KmemSys ι) (pa : Nat) : Int := s.km.num_ref_to_page (pa / PGSIZE)

/-- What a step does. -/
def step (s : KmemSys ι) : KmemStep ι → Except StepFault (KmemSys ι)
  | .kalloc i =>
    if s.pc i = .idle then
      match kallocSection s.km with
      | (_, none) => .ok s
      | (km, some r) => .ok (({ s with km := km, refs := r ::ₘ s.refs } : KmemSys ι).setPc i (.taken r))
    else .error .disabled
  | .fill i =>
    match s.pc i with
    | .taken pa => .ok (({ s with km := s.km.memset pa 5 } : KmemSys ι).setPc i .idle)
    | _ => .error .disabled
  | .increase_num_ref i pa =>
    if s.pc i = .idle then
      match Xv6.increase_num_ref L s.km pa with
      | .error f => .error (.fault f)
      | .ok km => .ok { s with km := km, refs := pa ::ₘ s.refs }
    else .error .disabled
  | .kfree i pa =>
    if s.pc i = .idle then
      match kfreeCheck L s.km pa with
      | .error f => .error (.fault f)
      | .ok () => .ok (s.setPc i (.checked pa))
    else .error .disabled
  | .drop i =>
    match s.pc i with
    | .checked pa =>
      .ok (({ s with km := (kfreeSection s.km pa).1, refs := s.refs.erase pa } : KmemSys ι).setPc i
        (if (kfreeSection s.km pa).2 then .dropped pa else .idle))
    | _ => .error .disabled
  | .junk i =>
    match s.pc i with
    | .dropped pa =>
      match kfreeJunk L s.km pa with
      | .error f => .error (.fault f)
      | .ok km => .ok (({ s with km := km } : KmemSys ι).setPc i (.filled pa))
    | _ => .error .disabled
  | .push i =>
    match s.pc i with
    | .filled pa => .ok (({ s with km := pushSection s.km pa } : KmemSys ι).setPc i .idle)
    | _ => .error .disabled

/-- `kfree` and `increase_num_ref` are applied to pages with a positive count. -/
def Positive (s : KmemSys ι) : KmemStep ι → Prop
  | .increase_num_ref _ pa => 0 < s.count pa
  | .kfree _ pa => 0 < s.count pa
  | _ => True

instance (s : KmemSys ι) : (c : KmemStep ι) → Decidable (s.Positive c)
  | .increase_num_ref _ pa => inferInstanceAs (Decidable (0 < s.count pa))
  | .kfree _ pa => inferInstanceAs (Decidable (0 < s.count pa))
  | .kalloc _ => .isTrue trivial
  | .fill _ => .isTrue trivial
  | .drop _ => .isTrue trivial
  | .junk _ => .isTrue trivial
  | .push _ => .isTrue trivial

/-- A `kfree` that takes the lock finds the count as positive as in its test: no other `kfree` has
dropped the last reference in between. -/
def Unraced (s : KmemSys ι) : KmemStep ι → Prop
  | .drop i => ∀ pa, s.pc i = .checked pa → 0 < s.count pa
  | _ => True

instance (s : KmemSys ι) : (c : KmemStep ι) → Decidable (s.Unraced c)
  | .kalloc _ => .isTrue trivial
  | .fill _ => .isTrue trivial
  | .increase_num_ref _ _ => .isTrue trivial
  | .kfree _ _ => .isTrue trivial
  | .drop i =>
    match hpc : s.pc i with
    | .checked pa =>
      decidable_of_iff (0 < s.count pa)
        ⟨fun h _ hqa => KPc.checked.inj (hpc.symm.trans hqa) ▸ h, fun h => h pa hpc⟩
    | .idle => .isTrue fun _ h => nomatch hpc.symm.trans h
    | .taken _ => .isTrue fun _ h => nomatch hpc.symm.trans h
    | .dropped _ => .isTrue fun _ h => nomatch hpc.symm.trans h
    | .filled _ => .isTrue fun _ h => nomatch hpc.symm.trans h
  | .junk _ => .isTrue trivial
  | .push _ => .isTrue trivial

/-- After `kinit`. -/
def Booted (s : KmemSys ι) : Prop :=
  (∃ ram, kinit L ram = .ok s.km) ∧ (∀ i, s.pc i = .idle) ∧ s.refs = 0

/-- The states of the runs in which no `kfree` is overtaken between its test and its lock. -/
def Reachable (s : KmemSys ι) : Prop :=
  Lib.Reach (Booted L) (fun s c => s.Positive c ∧ s.Unraced c) (step L) s

/-- The thread is in a `kfree` that has dropped the last reference and not pushed the page. -/
def Pushing (s : KmemSys ι) (i : ι) (pa : Nat) : Prop := s.pc i = .dropped pa ∨ s.pc i = .filled pa

variable {L} {s s' : KmemSys ι} {i j : ι} {pa qa : Nat}

/-- The invariant of the allocator. -/
structure Inv (L : Layout) (s : KmemSys ι) : Prop where
  nodup : s.km.freelist.Nodup
  mem_free : ∀ pa, pa ∈ s.km.freelist ↔ pa ∈ L.pages ∧ pa ∉ s.refs ∧ ∀ i, ¬ s.Pushing i pa
  counts : ∀ pa ∈ L.pages, s.count pa = s.refs.count pa
  sub : ∀ pa ∈ s.refs, pa ∈ L.pages
  pushing : ∀ i pa, s.Pushing i pa → pa ∈ L.pages ∧ pa ∉ s.refs
  alone : ∀ i j pa, s.Pushing i pa → s.Pushing j pa → i = j
  checked : ∀ i pa, s.pc i = .checked pa → pa ∈ L.pages

theorem pc_setPc (s : KmemSys ι) (i j : ι) (x : KPc) :
    (s.setPc i x).pc j = if j = i then x else s.pc j := by
  show update s.pc i x j = _
  by_cases hj : j = i
  · rw [hj, update_self, if_pos rfl]
  · rw [update_of_ne hj, if_neg hj]

/-- A thread that is in no `kfree` goes where it is in none. -/
theorem pushing_setPc (hold : ∀ pa, ¬ s.Pushing i pa) {x : KPc} (hx : ∀ pa, x ≠ .dropped pa ∧ x ≠ .filled pa) :
    (s.setPc i x).Pushing j pa ↔ s.Pushing j pa := by
  unfold Pushing
  rw [pc_setPc]
  by_cases hj : j = i
  · rw [if_pos hj, hj]
    constructor
    · intro h
      exact h.elim (fun h => absurd h (hx pa).1) fun h => absurd h (hx pa).2
    · intro h
      exact absurd h (hold pa)
  · rw [if_neg hj]

/-- Two pages have different entries. -/
theorem update_page (f : Nat → Int) (n : Int) (hpa : pa ∈ L.pages) (hqa : qa ∈ L.pages) :
    update f (pa / PGSIZE) n (qa / PGSIZE) = if qa = pa then n else f (qa / PGSIZE) := by
  by_cases hq : qa = pa
  · rw [hq, update_self, if_pos rfl]
  · have hne : qa / PGSIZE ≠ pa / PGSIZE := fun h =>
      hq ((page_index_inj (L.pages_aligned qa hqa) (L.pages_aligned pa hpa)).mp h)
    rw [update_of_ne hne, if_neg hq]

omit [DecidableEq ι] in
theorem Inv.zero_of_notMem (h : s.Inv L) (hpa : pa ∈ L.pages) (hno : pa ∉ s.refs) : s.count pa = 0 := by
  rw [h.counts pa hpa, Multiset.count_eq_zero.mpr hno]
  rfl

omit [DecidableEq ι] in
theorem Inv.mem_of_pos (h : s.Inv L) (hpa : pa ∈ L.pages) (hpos : 0 < s.count pa) : pa ∈ s.refs := by
  by_contra hno
  rw [h.zero_of_notMem hpa hno] at hpos
  exact absurd hpos (Int.lt_irrefl 0)

theorem mem_pages_of_inRange (h : L.inRange pa = true) : pa ∈ L.pages := by
  rw [L.mem_pages]
  simp only [Layout.inRange, decide_eq_true_eq] at h
  omega

/-! ## §4. What each step does. -/

omit [DecidableEq ι] in
/-- The list, the counts and the references stay, and so do the pages in the hands of a `kfree`. -/
theorem Inv.setPc (h : s.Inv L) (hfree : s'.km.freelist = s.km.freelist)
    (hcount : s'.km.num_ref_to_page = s.km.num_ref_to_page) (hrefs : s'.refs = s.refs)
    (hpush : ∀ j pa, s'.Pushing j pa ↔ s.Pushing j pa)
    (hchecked : ∀ j pa, s'.pc j = .checked pa → pa ∈ L.pages) : s'.Inv L := by
  refine ⟨hfree ▸ h.nodup, fun pa => ?_, fun pa hpa => ?_, fun pa hpa => h.sub pa (hrefs ▸ hpa),
    fun j pa hj => ?_, fun j k pa hj hk => ?_, hchecked⟩
  · rw [hfree, hrefs, h.mem_free]
    simp only [hpush]
  · show s'.km.num_ref_to_page _ = _
    rw [hcount, hrefs]
    exact h.counts pa hpa
  · rw [hrefs]
    exact h.pushing j pa ((hpush j pa).mp hj)
  · exact h.alone j k pa ((hpush j pa).mp hj) ((hpush k pa).mp hk)

omit [DecidableEq ι] in
theorem not_pushing (hpc : ∀ pa, s.pc i ≠ .dropped pa ∧ s.pc i ≠ .filled pa) (pa : Nat) : ¬ s.Pushing i pa :=
  fun h => h.elim (hpc pa).1 (hpc pa).2

theorem checked_setPc (h : s.Inv L) {x : KPc} (hx : ∀ pa, x = .checked pa → pa ∈ L.pages)
    (hj : (s.setPc i x).pc j = .checked pa) : pa ∈ L.pages := by
  rw [pc_setPc] at hj
  split at hj
  · exact hx pa hj
  · exact h.checked j pa hj

omit [DecidableEq ι] in
/-- The head of the list is a page that nobody refers to. -/
theorem Inv.head (h : s.Inv L) {r : Nat} {next : List Nat} (hlist : s.km.freelist = r :: next) :
    r ∈ L.pages ∧ r ∉ s.refs ∧ (∀ i, ¬ s.Pushing i r) ∧ s.km.num_ref_to_page (r / PGSIZE) = 0 := by
  have hmem : r ∈ s.km.freelist := by
    rw [hlist]
    exact List.mem_cons_self
  obtain ⟨hpa, hno, hpush⟩ := (h.mem_free r).mp hmem
  exact ⟨hpa, hno, hpush, h.zero_of_notMem hpa hno⟩

omit [DecidableEq ι] in
theorem Inv.kallocSection (h : s.Inv L) :
    (s.km.freelist = [] ∧ Xv6.kallocSection s.km = (s.km, none))
    ∨ ∃ r next, s.km.freelist = r :: next
      ∧ Xv6.kallocSection s.km = ({ s.km with
          num_ref_to_page := update s.km.num_ref_to_page (r / PGSIZE) 1,
          freelist := next }, some r) := by
  unfold Xv6.kallocSection
  cases hlist : s.km.freelist with
  | nil => exact .inl ⟨rfl, rfl⟩
  | cons r next =>
    refine .inr ⟨r, next, rfl, ?_⟩
    dsimp only
    rw [if_neg (not_not.mpr (h.head hlist).2.2.2)]

/-- **`kalloc`** hands out the head of the list. -/
theorem Inv.kalloc (h : s.Inv L) (hrun : step L s (.kalloc i) = .ok s') : s'.Inv L := by
  dsimp only [step] at hrun
  split at hrun
  · rename_i hpc
    have hnot : ∀ pa, ¬ s.Pushing i pa := not_pushing fun pa => by rw [hpc]; exact ⟨nofun, nofun⟩
    rcases h.kallocSection with ⟨-, hk⟩ | ⟨r, next, hlist, hk⟩
    · rw [hk] at hrun
      cases hrun
      exact h
    rw [hk] at hrun
    cases hrun
    obtain ⟨hr, hno, hrpush, -⟩ := h.head hlist
    have hnodup : (r :: next).Nodup := hlist ▸ h.nodup
    obtain ⟨hrnext, hnext⟩ := List.nodup_cons.mp hnodup
    have hpush : ∀ j pa, Pushing (KmemSys.setPc ⟨⟨next, update s.km.num_ref_to_page (r / PGSIZE) 1,
        s.km.mem⟩, s.pc, r ::ₘ s.refs⟩ i (.taken r)) j pa ↔ s.Pushing j pa := fun j pa =>
      pushing_setPc (s := ⟨⟨next, update s.km.num_ref_to_page (r / PGSIZE) 1, s.km.mem⟩, s.pc,
        r ::ₘ s.refs⟩) hnot fun _ => ⟨nofun, nofun⟩
    refine ⟨hnext, fun pa => ?_, fun pa hpa => ?_, fun pa hpa => ?_, fun j pa hj => ?_,
      fun j k pa hj hk => h.alone j k pa ((hpush j pa).mp hj) ((hpush k pa).mp hk), fun j pa hj => ?_⟩
    · show pa ∈ next ↔ pa ∈ L.pages ∧ pa ∉ r ::ₘ s.refs ∧ _
      simp only [hpush, Multiset.mem_cons, not_or]
      have hold := h.mem_free pa
      rw [hlist, List.mem_cons] at hold
      by_cases hpr : pa = r
      · rw [hpr]
        simp only [hrnext, not_true_eq_false, false_and, and_false]
      · simp only [hpr, false_or] at hold
        simp only [hold, hpr, not_false_eq_true, true_and]
    · show update s.km.num_ref_to_page (r / PGSIZE) 1 (pa / PGSIZE) = ((r ::ₘ s.refs).count pa : Int)
      rw [update_page _ _ hr hpa]
      split
      · rename_i hpr
        rw [hpr, Multiset.count_cons_self, Multiset.count_eq_zero.mpr hno]
        rfl
      · rename_i hpr
        rw [Multiset.count_cons_of_ne hpr]
        exact h.counts pa hpa
    · rcases Multiset.mem_cons.mp hpa with rfl | hpa
      · exact hr
      · exact h.sub pa hpa
    · have hold := (hpush j pa).mp hj
      refine ⟨(h.pushing j pa hold).1, fun hin => ?_⟩
      rcases Multiset.mem_cons.mp hin with heq | hin
      · exact hrpush j (heq ▸ hold)
      · exact (h.pushing j pa hold).2 hin
    · exact checked_setPc (s := s) h (x := .taken r) nofun hj
  · cases hrun

/-- **`increase_num_ref`** on a page with a positive count. -/
theorem Inv.increase_num_ref (h : s.Inv L) (hpos : 0 < s.count pa)
    (hrun : step L s (.increase_num_ref i pa) = .ok s') : s'.Inv L := by
  dsimp only [step] at hrun
  split at hrun
  · cases hinc : Xv6.increase_num_ref L s.km pa with
    | error f => rw [hinc] at hrun; cases hrun
    | ok km =>
      rw [hinc] at hrun
      cases hrun
      unfold Xv6.increase_num_ref at hinc
      split at hinc
      · cases hinc
      rename_i hrange
      have hpa : pa ∈ L.pages := mem_pages_of_inRange (not_not.mp hrange)
      have hin := h.mem_of_pos hpa hpos
      split at hinc
      · cases hinc
      cases hinc
      refine ⟨h.nodup, fun qa => ?_, fun qa hqa => ?_, fun qa hqa => ?_, fun j qa hj => ?_, h.alone,
        h.checked⟩
      · show qa ∈ s.km.freelist ↔ qa ∈ L.pages ∧ qa ∉ pa ::ₘ s.refs ∧ ∀ i, ¬ s.Pushing i qa
        rw [h.mem_free qa]
        by_cases hq : qa = pa
        · rw [hq]
          simp only [Multiset.mem_cons, true_or, not_true_eq_false, false_and, and_false, hin]
        · simp only [Multiset.mem_cons, hq, false_or]
      · show update s.km.num_ref_to_page (pa / PGSIZE) _ (qa / PGSIZE) = ((pa ::ₘ s.refs).count qa : Int)
        rw [update_page _ _ hpa hqa]
        split
        · rename_i hq
          have hold := h.counts pa hpa
          rw [hq, Multiset.count_cons_self]
          show s.count pa + 1 = _
          rw [hold]
          push_cast
          rfl
        · rename_i hq
          rw [Multiset.count_cons_of_ne hq]
          exact h.counts qa hqa
      · rcases Multiset.mem_cons.mp hqa with rfl | hqa
        · exact hpa
        · exact h.sub qa hqa
      · refine ⟨(h.pushing j qa hj).1, fun hmem => ?_⟩
        rcases Multiset.mem_cons.mp hmem with rfl | hmem
        · exact (h.pushing j qa hj).2 hin
        · exact (h.pushing j qa hj).2 hmem
  · cases hrun

/-- **`kfree` under the lock.** -/
theorem Inv.drop (h : s.Inv L) (hpc : s.pc i = .checked pa) (hpos : 0 < s.count pa)
    (hrun : step L s (.drop i) = .ok s') : s'.Inv L := by
  dsimp only [step] at hrun
  rw [hpc] at hrun
  cases hrun
  have hpa := h.checked i pa hpc
  have hin := h.mem_of_pos hpa hpos
  have hcount := h.counts pa hpa
  have hnoone : ∀ j, ¬ s.Pushing j pa := fun j hj => (h.pushing j pa hj).2 hin
  have hself : (s.refs.erase pa).count pa = s.refs.count pa - 1 := Multiset.count_erase_self pa s.refs
  -- the last reference is the one that is erased
  have hlast : s.count pa - 1 = 0 ↔ pa ∉ s.refs.erase pa := by
    rw [← Multiset.count_eq_zero, hself, hcount]
    omega
  have hmem : ∀ qa, qa ≠ pa → (qa ∈ s.refs.erase pa ↔ qa ∈ s.refs) := fun qa hq => Multiset.mem_erase_of_ne hq
  have hsub : ∀ qa, qa ∈ s.refs.erase pa → qa ∈ s.refs := fun qa hq => Multiset.mem_of_mem_erase hq
  let t : KmemSys ι := ({ s with
    km := (kfreeSection s.km pa).1
    refs := s.refs.erase pa } : KmemSys ι).setPc i (if (kfreeSection s.km pa).2 then .dropped pa else .idle)
  have hpcj : ∀ j, t.pc j = if j = i then (if (kfreeSection s.km pa).2 then .dropped pa else .idle) else s.pc j :=
    fun j => pc_setPc _ i j _
  have hdec : (kfreeSection s.km pa).2 = true ↔ s.count pa - 1 = 0 := decide_eq_true_iff
  have hpushi : ∀ qa, t.Pushing i qa ↔ qa = pa ∧ pa ∉ s.refs.erase pa := by
    intro qa
    unfold Pushing
    rw [hpcj, if_pos rfl]
    by_cases hz : (kfreeSection s.km pa).2 = true
    · rw [if_pos hz]
      have := hlast.mp (hdec.mp hz)
      simp only [KPc.dropped.injEq, reduceCtorEq, or_false, this, not_false_eq_true, and_true]
      exact eq_comm
    · rw [if_neg hz]
      have hno : ¬ pa ∉ s.refs.erase pa := fun hc => hz (hdec.mpr (hlast.mpr hc))
      simp only [reduceCtorEq, or_self, hno, and_false]
  have hpushj : ∀ j qa, j ≠ i → (t.Pushing j qa ↔ s.Pushing j qa) := by
    intro j qa hj
    unfold Pushing
    rw [hpcj, if_neg hj]
  have hnoti : ∀ qa, ¬ s.Pushing i qa := not_pushing fun qa => by rw [hpc]; exact ⟨nofun, nofun⟩
  show t.Inv L
  refine ⟨h.nodup, fun qa => ?_, fun qa hqa => ?_, fun qa hqa => h.sub qa (hsub qa hqa), fun j qa hj => ?_,
    fun j k qa hj hk => ?_, fun j qa hj => ?_⟩
  · show qa ∈ s.km.freelist ↔ qa ∈ L.pages ∧ qa ∉ s.refs.erase pa ∧ _
    rw [h.mem_free qa]
    by_cases hq : qa = pa
    · rw [hq]
      constructor
      · exact fun hc => absurd hin hc.2.1
      · exact fun hc => absurd ((hpushi pa).mpr ⟨rfl, hc.2.1⟩) (hc.2.2 i)
    rw [hmem qa hq]
    constructor
    · refine fun hc => ⟨hc.1, hc.2.1, fun j hj => ?_⟩
      by_cases hji : j = i
      · rw [hji] at hj
        exact hq ((hpushi qa).mp hj).1
      · exact hc.2.2 j ((hpushj j qa hji).mp hj)
    · refine fun hc => ⟨hc.1, hc.2.1, fun j hj => ?_⟩
      have hji : j ≠ i := fun he => hnoti qa (he ▸ hj)
      exact hc.2.2 j ((hpushj j qa hji).mpr hj)
  · show update s.km.num_ref_to_page (pa / PGSIZE) _ (qa / PGSIZE) = ((s.refs.erase pa).count qa : Int)
    rw [update_page _ _ hpa hqa]
    split
    · rename_i hq
      rw [hq, hself]
      show s.count pa - 1 = _
      omega
    · rename_i hq
      rw [Multiset.count_erase_of_ne hq]
      exact h.counts qa hqa
  · by_cases hji : j = i
    · rw [hji] at hj
      obtain ⟨rfl, hgone⟩ := (hpushi qa).mp hj
      exact ⟨hpa, hgone⟩
    · have hj := (hpushj j qa hji).mp hj
      exact ⟨(h.pushing j qa hj).1, fun hc => (h.pushing j qa hj).2 (hsub qa hc)⟩
  · by_cases hji : j = i
    · by_cases hki : k = i
      · rw [hji, hki]
      · rw [hji] at hj
        have hk := (hpushj k qa hki).mp hk
        rw [((hpushi qa).mp hj).1] at hk
        exact absurd hk (hnoone k)
    have hj := (hpushj j qa hji).mp hj
    by_cases hki : k = i
    · rw [hki] at hk
      rw [((hpushi qa).mp hk).1] at hj
      exact absurd hj (hnoone j)
    · exact h.alone j k qa hj ((hpushj k qa hki).mp hk)
  · rw [hpcj] at hj
    split at hj
    · split at hj <;> cases hj
    · exact h.checked j qa hj

/-- **`kfree_original` under the lock** puts the page on the list. -/
theorem Inv.push (h : s.Inv L) (hpc : s.pc i = .filled pa) (hrun : step L s (.push i) = .ok s') : s'.Inv L := by
  dsimp only [step] at hrun
  rw [hpc] at hrun
  cases hrun
  have hpush : s.Pushing i pa := .inr hpc
  obtain ⟨hpa, hno⟩ := h.pushing i pa hpush
  have honly : ∀ qa, s.Pushing i qa → qa = pa := by
    intro qa hq
    rcases hq with hq | hq
    · rw [hpc] at hq
      cases hq
    · rw [hpc] at hq
      exact (KPc.filled.inj hq).symm
  let t : KmemSys ι := ({ s with km := pushSection s.km pa } : KmemSys ι).setPc i .idle
  have hpcj : ∀ j, t.pc j = if j = i then .idle else s.pc j := fun j => pc_setPc _ i j _
  have hpushj : ∀ j qa, t.Pushing j qa ↔ j ≠ i ∧ s.Pushing j qa := by
    intro j qa
    unfold Pushing
    rw [hpcj]
    by_cases hji : j = i
    · simp only [hji, if_true, reduceCtorEq, or_self, ne_eq, not_true_eq_false, false_and]
    · simp only [hji, if_false, ne_eq, not_false_eq_true, true_and]
  have hnotfree : pa ∉ s.km.freelist := fun hc => ((h.mem_free pa).mp hc).2.2 i hpush
  show t.Inv L
  refine ⟨List.nodup_cons.mpr ⟨hnotfree, h.nodup⟩, fun qa => ?_, h.counts, h.sub,
    fun j qa hj => h.pushing j qa ((hpushj j qa).mp hj).2,
    fun j k qa hj hk => h.alone j k qa ((hpushj j qa).mp hj).2 ((hpushj k qa).mp hk).2, fun j qa hj => ?_⟩
  · show qa ∈ pa :: s.km.freelist ↔ qa ∈ L.pages ∧ qa ∉ s.refs ∧ _
    rw [List.mem_cons, h.mem_free qa]
    by_cases hq : qa = pa
    · rw [hq]
      refine ⟨fun _ => ⟨hpa, hno, fun j hj => ?_⟩, fun _ => .inl rfl⟩
      obtain ⟨hji, hj⟩ := (hpushj j pa).mp hj
      exact hji (h.alone j i pa hj hpush)
    · simp only [hq, false_or]
      refine ⟨fun hc => ⟨hc.1, hc.2.1, fun j hj => hc.2.2 j ((hpushj j qa).mp hj).2⟩,
        fun hc => ⟨hc.1, hc.2.1, fun j hj => hc.2.2 j ((hpushj j qa).mpr ⟨fun hji => ?_, hj⟩)⟩⟩
      exact hq (honly qa (hji ▸ hj))
  · rw [hpcj] at hj
    split at hj
    · cases hj
    · exact h.checked j qa hj

/-- **One step** of one thread. -/
theorem Inv.step {c : KmemStep ι} (h : s.Inv L) (hpos : s.Positive c ∧ s.Unraced c) (hrun : KmemSys.step L s c = .ok s') :
    s'.Inv L := by
  cases c with
  | kalloc i => exact h.kalloc hrun
  | increase_num_ref i pa => exact h.increase_num_ref hpos.1 hrun
  | fill i =>
    dsimp only [KmemSys.step] at hrun
    cases hpc : s.pc i with
    | taken pa =>
      rw [hpc] at hrun
      cases hrun
      refine h.setPc rfl rfl rfl (fun j qa => ?_) fun j qa hj => checked_setPc h (x := .idle) nofun hj
      exact pushing_setPc (s := { s with km := s.km.memset pa 5 })
        (not_pushing fun qa => by show s.pc i ≠ _ ∧ s.pc i ≠ _; rw [hpc]; exact ⟨nofun, nofun⟩)
        fun _ => ⟨nofun, nofun⟩
    | _ => rw [hpc] at hrun; cases hrun
  | kfree i pa =>
    dsimp only [KmemSys.step] at hrun
    split at hrun
    · rename_i hpc
      cases hcheck : kfreeCheck L s.km pa with
      | error f => rw [hcheck] at hrun; cases hrun
      | ok u =>
        rw [hcheck] at hrun
        cases hrun
        have hpa : pa ∈ L.pages := by
          unfold kfreeCheck at hcheck
          split at hcheck
          · cases hcheck
          · exact mem_pages_of_inRange (not_not.mp ‹_›)
        refine h.setPc rfl rfl rfl (fun j qa => ?_) fun j qa hj => checked_setPc h (x := .checked pa)
          (fun qa hq => KPc.checked.inj hq ▸ hpa) hj
        exact pushing_setPc (not_pushing fun qa => by rw [hpc]; exact ⟨nofun, nofun⟩) fun _ => ⟨nofun, nofun⟩
    · cases hrun
  | drop i =>
    cases hpc : s.pc i with
    | checked pa => exact h.drop hpc (hpos.2 pa hpc) hrun
    | _ => dsimp only [KmemSys.step] at hrun; rw [hpc] at hrun; cases hrun
  | junk i =>
    dsimp only [KmemSys.step] at hrun
    cases hpc : s.pc i with
    | dropped pa =>
      rw [hpc] at hrun
      dsimp only at hrun
      cases hjunk : kfreeJunk L s.km pa with
      | error f => rw [hjunk] at hrun; cases hrun
      | ok km =>
        rw [hjunk] at hrun
        cases hrun
        unfold kfreeJunk at hjunk
        split at hjunk
        · cases hjunk
        cases hjunk
        refine h.setPc rfl rfl rfl (fun j qa => ?_) fun j qa hj => checked_setPc h (x := .filled pa) nofun hj
        -- the same page is in the same hands
        unfold Pushing
        rw [pc_setPc]
        by_cases hji : j = i
        · rw [if_pos hji, hji, hpc]
          simp only [reduceCtorEq, false_or, or_false, KPc.filled.injEq, KPc.dropped.injEq]
        · rw [if_neg hji]
    | _ => rw [hpc] at hrun; cases hrun
  | push i =>
    cases hpc : s.pc i with
    | filled pa => exact h.push hpc hrun
    | _ => dsimp only [KmemSys.step] at hrun; rw [hpc] at hrun; cases hrun

/-! ## §5. Runs. -/

omit [DecidableEq ι] in
/-- `kinit` leaves every page on the list. -/
theorem Booted.inv (h : Booted L s) : s.Inv L := by
  obtain ⟨⟨ram, hk⟩, hpc, hrefs⟩ := h
  obtain ⟨km, hk', hown⟩ := kinit_spec L ram
  obtain rfl := Except.ok.inj (hk'.symm.trans hk)
  have hno : ∀ i pa, ¬ s.Pushing i pa := fun i => not_pushing fun pa => by rw [hpc]; exact ⟨nofun, nofun⟩
  have htr := hown.tracks
  rw [Multiset.map_zero] at htr
  refine ⟨htr.nodup, fun pa => ?_, fun pa hpa => ?_, fun pa hpa => ?_, fun i pa hi => absurd hi (hno i pa),
    fun i _ pa hi => absurd hi (hno i pa), fun i pa hi => ?_⟩
  · rw [hrefs]
    refine (htr.mem_free pa).trans ?_
    simp only [Finset.mem_coe, Multiset.notMem_zero, not_false_eq_true, hno, implies_true, and_true]
  · rw [hrefs]
    exact htr.cnt_eq pa (Finset.mem_coe.mpr hpa)
  · rw [hrefs] at hpa
    exact absurd hpa (Multiset.notMem_zero pa)
  · rw [hpc] at hi
    cases hi

end KmemSys

end Xv6
