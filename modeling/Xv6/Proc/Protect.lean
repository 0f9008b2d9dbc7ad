/-
  Xv6.Proc.Protect — what copy-on-write does to the permissions of a page.

  The reference is a kernel whose `fork` copies every page with the flags of
  its entry.  Its flags run in lockstep with the system of `Xv6.Proc.Spaces`:
  a child starts with those of its parent, and nothing else changes them.

  An entry of the system is the reference's, or that entry marked by
  `uvmcopy`, or what `cowfault` has made of it.  `cowfault` gives every page
  all permissions, so the accesses that are allowed in the end are those of
  the reference only for pages that had all of them from the start, or that
  user code cannot touch at all.

  Main results:
    * `Pair.accesses_kept`   — no access of the reference is lost,
    * `Pair.same_protection` — pages with W and X have the same accesses,
    * `Pair.heap_executable` — a page of the heap becomes executable.
-/
import Xv6.Proc.Spaces

namespace Xv6.Spaces

/-! ## §1. Permissions. -/

/-- What user code does at an address. -/
inductive Access where
  | read | write | exec
  deriving DecidableEq

/-- What the hardware lets user code do with an entry. -/
def Flags.allows (f : Flags) : Access → Bool
  | .read => f.v && f.u && f.r
  | .write => f.v && f.u && f.w
  | .exec => f.v && f.u && f.x

/-- What user code may do at an address: now, or when a store there has faulted and the process lives on. -/
def eventually (L : Layout) (km : Kmem) (pt : Pagetable) (va : Nat) (a : Access) : Bool :=
  Flags.allows (pt.flat (va / PGSIZE)).flags a ||
    match storeFault L km pt va with
    | .ok (_, pt', killed) => !killed && Flags.allows (pt'.flat (va / PGSIZE)).flags a
    | .error _ => false

/-- What an entry allows now, or once `cowfault` has copied the page. -/
def Flags.eventually (f : Flags) (a : Access) : Bool :=
  Flags.allows f a || f.v && f.u && f.cow && Flags.allows (Pte.resolved 0).flags a

/-- The flags after `uvmcopy`. -/
def Flags.marked (f : Flags) : Flags := { f with w := false, cow := true }

/-- What `uvmcopy` and `cowfault` make of an entry. -/
inductive Becomes (f : Flags) : Flags → Prop
  | same : Becomes f f
  | marked : Becomes f (Flags.marked f)
  | resolved : f.v = true → f.u = true → Becomes f (Pte.resolved 0).flags

/-- The entry of a page whose flags in the reference are `g`. -/
inductive Derived (g : Flags) : Flags → Prop
  | same : Derived g g
  | marked : Derived g (Flags.marked g)
  | resolved : g.v = true → g.u = true → Derived g (Pte.resolved 0).flags
  | remarked : g.v = true → g.u = true → Derived g (Flags.marked (Pte.resolved 0).flags)

variable {f g : Flags}

theorem Derived.user (h : Derived g f) (hv : f.v = true) (hu : f.u = true) : g.v = true ∧ g.u = true := by
  cases h with
  | same | marked => exact ⟨hv, hu⟩
  | resolved hgv hgu | remarked hgv hgu => exact ⟨hgv, hgu⟩

/-- **One change of an entry.** -/
theorem Derived.step {f' : Flags} (h : Derived g f) (hf : Becomes f f') : Derived g f' := by
  cases hf with
  | same => exact h
  | marked =>
    cases h with
    | same | marked => exact .marked
    | resolved hv hu | remarked hv hu => exact .remarked hv hu
  | resolved hv hu =>
    obtain ⟨hgv, hgu⟩ := h.user hv hu
    exact .resolved hgv hgu

/-- No access is lost. -/
theorem Derived.kept (h : Derived g f) {a : Access} (ha : Flags.allows g a = true) : Flags.eventually f a = true := by
  cases h with
  | same => rw [Flags.eventually, ha, Bool.true_or]
  | marked =>
    cases a with
    | read | exec => simp_all [Flags.eventually, Flags.allows, Flags.marked]
    | write =>
      simp only [Flags.allows, Bool.and_eq_true] at ha
      simp only [Flags.eventually, Flags.marked, ha.1.1, ha.1.2]
      rfl
  | resolved | remarked => cases a <;> rfl

/-- None is gained if the page has W and X, or is not for user code. -/
theorem Derived.eventually_eq (h : Derived g f) (hr : g.r = true)
    (hall : g.u = true → g.w = true ∧ g.x = true) (a : Access) : Flags.eventually f a = Flags.allows g a := by
  cases hu : g.u with
  | false =>
    cases h with
    | same => cases a <;> simp [Flags.eventually, Flags.allows, hu]
    | marked => cases a <;> simp [Flags.eventually, Flags.allows, Flags.marked, hu]
    | resolved hgv hgu | remarked hgv hgu => cases hu.symm.trans hgu
  | true =>
    obtain ⟨hw, hx⟩ := hall hu
    cases hv : g.v with
    | false =>
      cases h with
      | same => cases a <;> simp [Flags.eventually, Flags.allows, hv]
      | marked => cases a <;> simp [Flags.eventually, Flags.allows, Flags.marked, hv]
      | resolved hgv hgu | remarked hgv hgu => cases hv.symm.trans hgv
    | true =>
      have hallows : Flags.allows g a = true := by cases a <;> simp [Flags.allows, hv, hu, hr, hw, hx]
      rw [hallows]
      exact h.kept hallows

/-- **What a fault makes of an entry**: if the page is copy-on-write, the address is not 0 and there is a page for the
copy, then what is allowed at the address can be read off the flags. -/
theorem eventually_eq {L : Layout} {km : Kmem} {pt : Pagetable} {va : Nat} (h : UserFrames L km pt)
    (hlt : va / PGSIZE < MAXVPN)
    (hcopy : (pt.flat (va / PGSIZE)).flags.cow = true → va ≠ 0 ∧ (kalloc km).2 ≠ none) (a : Access) :
    eventually L km pt va a = Flags.eventually (pt.flat (va / PGSIZE)).flags a := by
  obtain ⟨km', pt', r, hrun, hcases⟩ := cowfault_spec h va
  have hfault : storeFault L km pt va = .ok (km', pt', decide (r < 0)) := by rw [storeFault, hrun, Result.ok_bind]
  unfold eventually Flags.eventually
  rw [hfault]
  dsimp only
  -- a fault that is refused is no fault at a copy-on-write page
  have hrefused : r = -1 → (pt.user (va / PGSIZE) = true → (pt.flat (va / PGSIZE)).flags.cow = true → False) →
      (!decide (r < 0) && Flags.allows (pt'.flat (va / PGSIZE)).flags a)
        = ((pt.flat (va / PGSIZE)).flags.v && (pt.flat (va / PGSIZE)).flags.u && (pt.flat (va / PGSIZE)).flags.cow
          && Flags.allows (Pte.resolved 0).flags a) := by
    rintro rfl hno
    rw [decide_eq_true (by decide), Bool.not_true, Bool.false_and, eq_comm, Bool.and_eq_false_iff, ← Bool.not_eq_true]
    refine .inl fun hcow => ?_
    simp only [Bool.and_eq_true] at hcow
    exact hno (user_iff.mpr ⟨hlt, hcow.1⟩) hcow.2
  rcases hcases with ⟨hr, -, -, hno⟩ | ⟨hr, -, -, hnone, -⟩ | ⟨rfl, rfl, rfl, -, -, hcow⟩ | ⟨rfl, -, huser, hcow, hcopied⟩
  · rw [hrefused hr fun huser hcow => ?_]
    rcases hno with hmax | hnull | hu
    · simp only [PGSIZE, MAXVA, MAXVPN] at hmax hlt
      omega
    · exact (hcopy hcow).1 hnull
    · rw [huser] at hu
      cases hu
  · rw [hrefused hr fun _ hcow => (hcopy hcow).2 hnone]
  · rw [hcow]
    simp
  · obtain ⟨pa, hflat⟩ := hcopied.flat
    obtain ⟨-, hv, hu⟩ := user_iff.mp huser
    rw [hflat, Function.update_self, hv, hu, hcow]
    rfl

/-! ## §2. The system and the reference. -/

/-- The operations that the comparison is about: `fork`, and everything that calls `cowfault`. -/
def Op.cow : Op → Bool
  | .fork .. => true
  | .store .. => true
  | .copyout .. => true
  | _ => false

/-- The system, and the flags that the entries have in the reference. -/
structure Pair where
  sys : Sys
  ref : Fin NPROC → Nat → Flags

namespace Pair

/-- A step of both: the child of an eager `fork` has the flags of its parent. -/
def step (L : Layout) (t : Pair) (op : Op) : Result Pair := do
  let s ← Spaces.step L t.sys op
  match op with
  | .fork p c => .ok ⟨s, if (t.sys.proc c).isNone then Function.update t.ref c (t.ref p) else t.ref⟩
  | _ => .ok ⟨s, t.ref⟩

/-- Both start with the same entries, none of them copy-on-write. -/
structure Start (L : Layout) (t : Pair) : Prop where
  inv : ∃ K, Inv L K t.sys
  entries : ∀ p sp v, t.sys.proc p = some sp → v < npages sp.sz →
    (sp.pagetable.flat v).flags.cow = false ∧ t.ref p v = (sp.pagetable.flat v).flags

/-- The states that forks, stores and faults lead to. -/
def Reached (L : Layout) (t : Pair) : Prop := Lib.Reach (Start L) (fun _ op => op.cow = true) (step L) t

end Pair

section Step

variable {L : Layout} {K : Multiset PageRef} {s s' : Sys} {t : Pair} {op : Op} {p q : Fin NPROC} {sp : Space}

/-- What an operation makes of an address space. -/
structure Turned (sp sp' : Space) : Prop where
  sz : sp'.sz = sp.sz
  entries : ∀ v, v < npages sp.sz → Becomes (sp.pagetable.flat v).flags (sp'.pagetable.flat v).flags

theorem Turned.refl (sp : Space) : Turned sp sp := ⟨rfl, fun _ _ => .same⟩

variable {sp' : Space}

theorem Turned.of_resolves (hsz : sp'.sz = sp.sz) (h : Resolves sp.pagetable sp'.pagetable) : Turned sp sp' := by
  refine ⟨hsz, fun v _ => ?_⟩
  rcases h v with heq | ⟨huser, heq⟩
  · rw [heq]
    exact .same
  · obtain ⟨-, hv, hu⟩ := user_iff.mp huser
    rw [heq]
    exact .resolved hv hu

theorem Turned.of_marked {km km' : Kmem} (h : Marked L km km' sp sp') : Turned sp sp' := by
  refine ⟨h.sz, fun v _ => ?_⟩
  obtain ⟨j, hflat⟩ := h.flat
  rw [hflat, markRange]
  split
  · exact .marked
  · exact .same

/-- In the process table: the address space comes from the process itself, or from its parent. -/
def Sys.Turns (s s' : Sys) (op : Op) : Prop := ∀ q sq', s'.proc q = some sq' →
  (∃ sq, s.proc q = some sq ∧ Turned sq sq')
    ∨ ∃ p sp, op = .fork p q ∧ s.proc q = none ∧ s.proc p = some sp ∧ Turned sp sq'

theorem Sys.Turns.refl (s : Sys) (op : Op) : s.Turns s op := fun _ sq hq => .inl ⟨sq, hq, .refl sq⟩

theorem Sys.Turns.put {km : Kmem} (hp : s.proc p = some sp) (h : Turned sp sp') (op : Op) :
    s.Turns (s.put km p (some sp')) op := by
  intro q sq' hq
  by_cases hqp : q = p
  · subst hqp
    rw [Sys.put_self] at hq
    cases hq
    exact .inl ⟨sp, hp, h⟩
  · rw [Sys.put_ne _ _ _ hqp] at hq
    exact .inl ⟨sq', hq, .refl sq'⟩

/-- **`fork`** marks the entries of the parent and gives them to the child. -/
theorem Inv.fork_turns (h : Inv L K s) (p c : Fin NPROC) (hrun : Spaces.step L s (.fork p c) = .ok s') :
    s.Turns s' (.fork p c) := by
  rw [Spaces.step] at hrun
  cases hp : s.proc p with
  | none =>
    rw [hp] at hrun
    cases hrun
    exact .refl s _
  | some sp =>
    cases hc : s.proc c with
    | some sc =>
      rw [hp, hc] at hrun
      cases hrun
      exact .refl s _
    | none =>
      rw [hp, hc] at hrun
      dsimp only at hrun
      obtain ⟨hgood, hown⟩ := h.own hp
      rcases fork_spec hgood hown with ⟨hover, -⟩ | ⟨km', sp', child, r, hfork, hmarked, hcase⟩
      · rw [hover, Result.error_bind] at hrun
        cases hrun
      rw [hfork, Result.ok_bind] at hrun
      cases hrun
      have hturned := Turned.of_marked hmarked
      intro q sq' hq
      by_cases hqc : q = c
      · -- the child has the marked entries too
        subst hqc
        rw [Sys.put_self] at hq
        subst hq
        rcases hcase with ⟨hnone, -⟩ | ⟨ch, hch, -, hsz, -, heq, -⟩
        · cases hnone
        · cases hch
          refine .inr ⟨p, sp, rfl, hc, hp, hsz, fun v hv => ?_⟩
          rw [heq v hv]
          exact hturned.entries v hv
      · rw [Sys.put_ne _ _ _ hqc] at hq
        rcases Sys.Turns.put hp hturned (.fork p c) q sq' hq with hself | ⟨p', sp₁, hop, -⟩
        · exact .inl hself
        · obtain ⟨-, hcq⟩ := Op.fork.inj hop
          exact absurd hcq.symm hqc

/-- **One step** of the system, seen from the entries. -/
theorem Inv.turns (h : Inv L K s) (hop : op.cow = true) (hrun : Spaces.step L s op = .ok s') : s.Turns s' op := by
  cases op with
  | fork p c => exact h.fork_turns p c hrun
  | store p va b =>
    rw [Spaces.step] at hrun
    cases hp : s.proc p with
    | none =>
      rw [hp] at hrun
      cases hrun
      exact .refl s _
    | some sp =>
      obtain ⟨hgood, hown⟩ := h.own hp
      obtain ⟨km', sp', hstore, -, hsz, -, hres⟩ := userStore_spec hgood hown va b
      rw [hp] at hrun
      dsimp only at hrun
      rw [hstore, Result.ok_bind] at hrun
      cases hrun
      exact .put hp (.of_resolves hsz hres) _
  | copyout p dstva src =>
    rw [Spaces.step] at hrun
    cases hp : s.proc p with
    | none =>
      rw [hp] at hrun
      cases hrun
      exact .refl s _
    | some sp =>
      obtain ⟨hgood, hown⟩ := h.own hp
      obtain ⟨km', pt', r, hcopy, -, -, -, hres, -⟩ := copyout_moves hgood.shape
        (F := {Lib.Ref.own sp.trapframe} + (s.others p + s.kernelRefs + K)) (hown.of_eq (by rw [Space.refs]; abel)) dstva src
      rw [hp] at hrun
      dsimp only at hrun
      rw [hcopy, Result.ok_bind] at hrun
      cases hrun
      have hturned : Turned sp { sp with pagetable := pt' } := .of_resolves rfl hres
      exact .put hp hturned _
  | _ => cases hop

end Step

namespace Pair

variable {L : Layout} {t t' : Pair} {op : Op} {p : Fin NPROC} {sp : Space} {va : Nat}

/-- The invariant of the comparison. -/
structure Lockstep (L : Layout) (t : Pair) : Prop where
  inv : ∃ K, Inv L K t.sys
  derived : ∀ p sp v, t.sys.proc p = some sp → v < npages sp.sz →
    ((t.ref p v).cow = false ∧ (t.ref p v).r = true) ∧ Derived (t.ref p v) (sp.pagetable.flat v).flags

/-- The two parts of a step. -/
theorem step_parts (hrun : step L t op = .ok t') :
    Spaces.step L t.sys op = .ok t'.sys ∧ ∀ q, (∀ p, op = .fork p q → t.sys.proc q ≠ none) → t'.ref q = t.ref q := by
  obtain ⟨s, hs, hrun⟩ := Lib.bind_ok hrun
  cases op with
  | fork p c =>
    cases hrun
    refine ⟨hs, fun q hq => ?_⟩
    split
    · rename_i hnone
      refine Function.update_of_ne ?_ ..
      rintro rfl
      exact hq p rfl (Option.isNone_iff_eq_none.mp hnone)
    · rfl
  | _ =>
    cases hrun
    exact ⟨hs, fun _ _ => rfl⟩

/-- A child has the reference flags of its parent. -/
theorem ref_child {q : Fin NPROC} (hrun : step L t (.fork p q) = .ok t') (hq : t.sys.proc q = none) :
    t'.ref q = t.ref p := by
  obtain ⟨s, -, hrun⟩ := Lib.bind_ok hrun
  cases hrun
  rw [hq, if_pos Option.isNone_none]
  exact Function.update_self ..

/-- **One step** of both. -/
theorem Lockstep.step (h : Lockstep L t) (hop : op.cow = true) (hrun : Pair.step L t op = .ok t') : Lockstep L t' := by
  obtain ⟨K, hinv⟩ := h.inv
  obtain ⟨hs, hrefs⟩ := step_parts hrun
  refine ⟨?_, fun q sq' v hq hv => ?_⟩
  · rcases hinv.step op with ⟨herr, -⟩ | ⟨s', K', hok, hinv', -⟩
    · cases hs.symm.trans herr
    · obtain rfl := Except.ok.inj (hok.symm.trans hs)
      exact ⟨K', hinv'⟩
  rcases hinv.turns hop hs q sq' hq with ⟨sq, hsq, hturned⟩ | ⟨p, sp, rfl, hnone, hp, hturned⟩
  · -- the process was there before
    rw [hturned.sz] at hv
    rw [hrefs q fun _ _ => by rw [hsq]; exact Option.some_ne_none sq]
    obtain ⟨hflags, hder⟩ := h.derived q sq v hsq hv
    exact ⟨hflags, hder.step (hturned.entries v hv)⟩
  · -- it is the child
    rw [hturned.sz] at hv
    rw [ref_child hrun hnone]
    obtain ⟨hflags, hder⟩ := h.derived p sp v hp hv
    exact ⟨hflags, hder.step (hturned.entries v hv)⟩

theorem Reached.lockstep (h : Reached L t) : Lockstep L t := by
  refine Lib.Reach.invariant (I := Lockstep L) ?_ (fun _ _ _ hi hop hrun => hi.step hop hrun) h
  intro t ht
  obtain ⟨K, hinv⟩ := ht.inv
  refine ⟨⟨K, hinv⟩, fun p sp v hp hv => ?_⟩
  obtain ⟨hcow, href⟩ := ht.entries p sp v hp hv
  rw [href]
  exact ⟨⟨hcow, (hinv.good p sp hp).shape.readable v hv⟩, .same⟩

/-- What is allowed in the end at an address of a process, from the flags of the page. -/
theorem Lockstep.eventually_eq (h : Lockstep L t) (hp : t.sys.proc p = some sp) (hv : va / PGSIZE < npages sp.sz)
    (hcopy : (sp.pagetable.flat (va / PGSIZE)).flags.cow = true → va ≠ 0 ∧ (kalloc t.sys.km).2 ≠ none) (a : Access) :
    eventually L t.sys.km sp.pagetable va a = Flags.eventually (sp.pagetable.flat (va / PGSIZE)).flags a := by
  obtain ⟨K, hinv⟩ := h.inv
  obtain ⟨hgood, hown⟩ := hinv.own hp
  have hframes : UserFrames L t.sys.km sp.pagetable :=
    hgood.shape.userFrames (F := {Lib.Ref.own sp.trapframe} + (t.sys.others p + t.sys.kernelRefs + K))
      (hown.of_eq (by rw [Space.refs]; abel))
  refine Spaces.eventually_eq hframes (Nat.lt_trans (Nat.lt_of_lt_of_le hv hgood.shape.bound) ?_) hcopy a
  decide

/-- **No access is lost**: what the reference allows at an address is allowed there in the end. -/
theorem accesses_kept (h : Reached L t) (hp : t.sys.proc p = some sp) (hv : va / PGSIZE < npages sp.sz)
    (hcopy : (sp.pagetable.flat (va / PGSIZE)).flags.cow = true → va ≠ 0 ∧ (kalloc t.sys.km).2 ≠ none) {a : Access}
    (ha : Flags.allows (t.ref p (va / PGSIZE)) a = true) : eventually L t.sys.km sp.pagetable va a = true := by
  rw [h.lockstep.eventually_eq hp hv hcopy]
  exact (h.lockstep.derived p sp _ hp hv).2.kept ha

/-- **Pages that have W and X, or are not for user code**, allow in the end what they allow in the reference, at every
address but 0 and as long as there is memory for a copy. -/
theorem same_protection (h : Reached L t) (hp : t.sys.proc p = some sp) (hv : va / PGSIZE < npages sp.sz)
    (hcopy : (sp.pagetable.flat (va / PGSIZE)).flags.cow = true → va ≠ 0 ∧ (kalloc t.sys.km).2 ≠ none)
    (hall : (t.ref p (va / PGSIZE)).u = true → (t.ref p (va / PGSIZE)).w = true ∧ (t.ref p (va / PGSIZE)).x = true)
    (a : Access) : eventually L t.sys.km sp.pagetable va a = Flags.allows (t.ref p (va / PGSIZE)) a := by
  rw [h.lockstep.eventually_eq hp hv hcopy]
  obtain ⟨⟨hcow, hr⟩, hder⟩ := h.lockstep.derived p sp _ hp hv
  exact hder.eventually_eq hr hall a

/-! ## §3. The heap of the first process. -/

/-- No entry is copy-on-write. -/
def plain (s : Sys) : Bool :=
  (List.finRange NPROC).all fun p => (s.proc p).all fun sp =>
    (List.range (npages sp.sz)).all fun v => !(sp.pagetable.flat v).flags.cow

/-- The comparison starts here. -/
def ofSys (s : Sys) : Pair :=
  ⟨s, fun p v => match s.proc p with
    | none => Flags.none
    | some sp => (sp.pagetable.flat v).flags⟩

theorem start_ofSys {s : Sys} (h : Reachable L s) (hplain : plain s = true) : Start L (ofSys s) := by
  refine ⟨h.inv, fun p sp v hp hv => ⟨?_, ?_⟩⟩
  · have hslot := List.all_eq_true.mp hplain p (List.mem_finRange p)
    have hsp : s.proc p = some sp := hp
    rw [hsp] at hslot
    have hentry := List.all_eq_true.mp hslot v (List.mem_range.mpr hv)
    rw [Bool.not_eq_true'] at hentry
    exact hentry
  · have hsp : s.proc p = some sp := hp
    show (match s.proc p with
      | none => Flags.none
      | some sp => (sp.pagetable.flat v).flags) = _
    rw [hsp]

/-- The first process grows by a page, forks, and stores to the new page. -/
theorem heap_run : ∃ t sp, Reached Layout.small t ∧ t.sys.proc firstSlot = some sp ∧ npages sp.sz = 2
    ∧ Flags.allows (t.ref firstSlot 1) .exec = false ∧ Flags.allows (sp.pagetable.flat 1).flags .exec = true := by
  obtain ⟨s₀, hbooted, hfirst⟩ := booted_of_test (fun s =>
    Lib.reaches (fun _ _ => True) (Spaces.step Layout.small) s [.sbrk firstSlot 4096]
      fun s => plain s && Lib.reaches (fun _ op => Op.cow op = true) (step Layout.small) (ofSys s)
        [.fork firstSlot secondSlot, .store firstSlot 4100 7]
        fun t => (t.sys.proc firstSlot).any fun sp =>
          npages sp.sz == 2 && (!Flags.allows (t.ref firstSlot 1) .exec && Flags.allows (sp.pagetable.flat 1).flags .exec))
    (by decide +kernel)
  obtain ⟨s, hs, hend⟩ := Lib.Reach.of_reaches _ _ hbooted hfirst
  obtain ⟨hplain, hrun⟩ := Bool.and_eq_true_iff.mp hend
  -- the copy-on-write run starts from the state that sbrk leaves
  obtain ⟨t, ht, htest⟩ := Lib.Reach.of_reaches _ _ (start_ofSys hs hplain) hrun
  obtain ⟨sp, hp, htest⟩ := (Option.any_eq_true ..).mp htest
  simp only [Bool.and_eq_true, beq_iff_eq, Bool.not_eq_true'] at htest
  exact ⟨t, sp, ht, hp, htest⟩

/-- After a `fork` the first page is copy-on-write; there is memory. -/
theorem shared_run : ∃ t sp, Reached Layout.small t ∧ t.sys.proc firstSlot = some sp ∧ 0 < npages sp.sz
    ∧ (sp.pagetable.flat 0).flags.cow = true ∧ (kalloc t.sys.km).2 ≠ none
    ∧ (t.ref firstSlot 0).w = true ∧ (t.ref firstSlot 0).x = true ∧ Flags.allows (t.ref firstSlot 0) .write = true := by
  obtain ⟨s, hs, htest⟩ := booted_of_test (fun s => plain s &&
    Lib.reaches (fun _ op => Op.cow op = true) (step Layout.small) (ofSys s) [.fork firstSlot secondSlot]
      fun t => (t.sys.proc firstSlot).any fun sp => decide (0 < npages sp.sz) && ((sp.pagetable.flat 0).flags.cow
        && ((kalloc t.sys.km).2.isSome && ((t.ref firstSlot 0).w && ((t.ref firstSlot 0).x
        && Flags.allows (t.ref firstSlot 0) .write))))) (by decide +kernel)
  obtain ⟨hplain, hrun⟩ := Bool.and_eq_true_iff.mp htest
  obtain ⟨t, ht, htest⟩ := Lib.Reach.of_reaches _ _ (start_ofSys (.start hs) hplain) hrun
  obtain ⟨sp, hp, htest⟩ := (Option.any_eq_true ..).mp htest
  simp only [Bool.and_eq_true, decide_eq_true_eq, Option.isSome_iff_ne_none] at htest
  exact ⟨t, sp, ht, hp, htest⟩

/-- The write access of a page that is copy-on-write. -/
theorem accesses_kept_shared : ∃ t sp, Reached Layout.small t ∧ t.sys.proc firstSlot = some sp
      ∧ (sp.pagetable.flat 0).flags.w = false ∧ eventually Layout.small t.sys.km sp.pagetable 4 .write = true := by
  obtain ⟨t, sp, ht, hp, hv, hcow, hmem, -, -, ha⟩ := shared_run
  obtain ⟨K, hinv⟩ := ht.lockstep.inv
  exact ⟨t, sp, ht, hp, (hinv.good _ _ hp).shape.cow 0 hv hcow,
    accesses_kept ht hp hv (fun _ => ⟨by decide, hmem⟩) ha⟩

/-- The first page has all permissions, in the reference and in the end. -/
theorem same_protection_shared : ∃ t sp, Reached Layout.small t ∧ t.sys.proc firstSlot = some sp
      ∧ (sp.pagetable.flat 0).flags.cow = true
      ∧ ∀ a, eventually Layout.small t.sys.km sp.pagetable 4 a = Flags.allows (t.ref firstSlot 0) a := by
  obtain ⟨t, sp, ht, hp, hv, hcow, hmem, hw, hx, -⟩ := shared_run
  exact ⟨t, sp, ht, hp, hcow, same_protection ht hp hv (fun _ => ⟨by decide, hmem⟩) fun _ => ⟨hw, hx⟩⟩

/-- **A page of the heap becomes executable**, which it is not in the reference. -/
theorem heap_executable : ∃ t sp, Reached Layout.small t ∧ t.sys.proc firstSlot = some sp ∧ 1 < npages sp.sz
      ∧ Flags.allows (t.ref firstSlot 1) .exec = false ∧ Flags.allows (sp.pagetable.flat 1).flags .exec = true := by
  obtain ⟨t, sp, ht, hp, hsz, hexec⟩ := heap_run
  exact ⟨t, sp, ht, hp, by rw [hsz]; decide, hexec⟩

end Pair

end Xv6.Spaces
