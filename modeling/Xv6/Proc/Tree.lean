/-
  Xv6.Proc.Tree — the tree of processes.

  The process table is a lineage (`Xv6.Lib.Lineage`) with root `initproc`:
  every step either leaves its lineage as it was or is a step of it.  That a
  new process is touched by nobody but the process that forks it (`ForkInv`),
  and that `exit` leaves no child behind (the guard of `exitZombie` in
  `Xv6.Proc.Wait`), is what makes the steps possible.

  Main result: `process_tree`.
-/
import Xv6.Proc.Wait
import Xv6.Lib.Lineage

namespace Xv6

open Function (update update_eq_self update_of_ne update_self)

/-- The life of a process in the given state. -/
def ProcState.life : ProcState → Lib.Life
  | .UNUSED => .unused
  | .USED => .new
  | .SLEEPING | .RUNNABLE | .RUNNING => .alive
  | .ZOMBIE => .zombie

/-- The process that `fork` is making. -/
def Pc.making : Pc → Option Slot
  | .forkFound np | .forkParent np | .forkReady np => some np
  | _ => none

/-- `fork` has set the parent of the process that it is making. -/
def Pc.adopted : Pc → Bool
  | .forkReady _ => true
  | _ => false

namespace ProcSys

variable {s s' s₁ : ProcSys} {p q np : Slot} {c : Pc}

/-- The process table as a lineage. -/
def lineage (s : ProcSys) : Lib.Lineage Slot where
  life := fun p => (s.proc p).state.life
  parent := fun p => (s.proc p).parent
  born := s.born
  births := s.births
  reaped := s.freed

theorem lineage_setProc (s : ProcSys) (q : Slot) (y : Proc) :
    (s.setProc q y).lineage = (s.lineage.setLife q y.state.life).setParent q y.parent := by
  have hlife : (fun p => (update s.proc q y p).state.life)
      = update (fun p => (s.proc p).state.life) q y.state.life :=
    Function.comp_update (fun x : Proc => x.state.life) s.proc q y
  have hparent : (fun p => (update s.proc q y p).parent)
      = update (fun p => (s.proc p).parent) q y.parent :=
    Function.comp_update Proc.parent s.proc q y
  unfold lineage Lib.Lineage.setParent Lib.Lineage.setLife ProcSys.setProc
  rw [hlife, hparent]

theorem setLife_self (s : ProcSys) (q : Slot) : s.lineage.setLife q (s.proc q).state.life = s.lineage := by
  have hself : update s.lineage.life q (s.proc q).state.life = s.lineage.life :=
    update_eq_self q s.lineage.life
  unfold Lib.Lineage.setLife
  rw [hself]

theorem lineage_setLife (s : ProcSys) (q : Slot) (y : Proc) (h : y.parent = (s.proc q).parent) :
    (s.setProc q y).lineage = s.lineage.setLife q y.state.life := by
  have hself : update s.lineage.parent q (s.proc q).parent = s.lineage.parent :=
    update_eq_self q s.lineage.parent
  rw [lineage_setProc, h]
  unfold Lib.Lineage.setParent Lib.Lineage.setLife
  rw [hself]

theorem lineage_setParent (s : ProcSys) (q : Slot) (y : Proc) (h : y.state.life = (s.proc q).state.life) :
    (s.setProc q y).lineage = s.lineage.setParent q y.parent := by
  rw [lineage_setProc, h, setLife_self]

/-! ## §1. A process that is being made. -/

/-- A process in the making is new, younger than the one that makes it, and
made by one process only. -/
structure ForkInv (f : Lib.Lineage Slot) (pc : Slot → Pc) : Prop where
  made : ∀ p np, (pc p).making = some np → f.life np = .new ∧ f.life p = .alive
    ∧ f.born p < f.born np ∧ f.parent np = if (pc p).adopted then some p else none
  unique : ∀ p p' np, (pc p).making = some np → (pc p').making = some np → p = p'

/-- Nobody begins to make a process. -/
def NoNew (pc pc' : Slot → Pc) : Prop :=
  ∀ p np, (pc' p).making = some np →
    (pc p).making = some np ∧ (pc' p).adopted = (pc p).adopted

theorem noNew_goto (s : ProcSys) (p : Slot) (hc : c.making = none) : NoNew s.pc (s.goto p c).pc := by
  intro r np hr
  unfold ProcSys.goto at hr ⊢
  dsimp only at hr ⊢
  by_cases hp : r = p
  · rw [hp, update_self, hc] at hr
    cases hr
  · rw [update_of_ne hp] at hr ⊢
    exact ⟨hr, rfl⟩

/-- Steps that do not touch the processes in the making and their makers. -/
theorem ForkInv.keep {f f' : Lib.Lineage Slot} {pc pc' : Slot → Pc} (h : ForkInv f pc) (hpc : NoNew pc pc')
    (hf : ∀ p np, (pc' p).making = some np → f'.life np = f.life np ∧ f'.parent np = f.parent np
      ∧ f'.born np = f.born np ∧ f'.life p = f.life p ∧ f'.born p = f.born p) : ForkInv f' pc' := by
  refine ⟨fun p np hm => ?_, fun p p' np hm hm' => ?_⟩
  · obtain ⟨hold, had⟩ := hpc p np hm
    obtain ⟨hlife, hpar, hborn, hlife', hborn'⟩ := hf p np hm
    rw [hlife, hpar, hborn, hlife', hborn', had]
    exact h.made p np hold
  · exact h.unique p p' np (hpc p np hm).1 (hpc p' np hm').1

/-! ## §2. The invariant. -/

/-- Processes are a tree, with pids in the order of births. -/
structure TreeInv (s : ProcSys) : Prop where
  family : s.lineage.Inv initproc
  fork : ForkInv s.lineage s.pc
  pid : ∀ p, (s.proc p).state ≠ .UNUSED → (s.proc p).pid = BitVec.ofNat 32 (s.born p)
  nextpid : s.nextpid = BitVec.ofNat 32 s.births

/-- A step that the lineage does not see. -/
structure Unseen (s s' : ProcSys) : Prop where
  lineage : s'.lineage = s.lineage
  making : NoNew s.pc s'.pc
  pid : ∀ p, (s'.proc p).pid = (s.proc p).pid
  nextpid : s'.nextpid = s.nextpid

theorem Unseen.trans (h : Unseen s s₁) (h' : Unseen s₁ s') : Unseen s s' := by
  refine ⟨h'.lineage.trans h.lineage, fun p np hm => ?_, fun p => (h'.pid p).trans (h.pid p),
    h'.nextpid.trans h.nextpid⟩
  obtain ⟨hm₁, had₁⟩ := h'.making p np hm
  obtain ⟨hm₀, had₀⟩ := h.making p np hm₁
  exact ⟨hm₀, had₁.trans had₀⟩

theorem unseen_goto (s : ProcSys) (p : Slot) (c : Pc) (hc : c.making = none) : Unseen s (s.goto p c) :=
  ⟨rfl, noNew_goto s p hc, fun _ => rfl, rfl⟩

theorem unseen_setProc (s : ProcSys) (q : Slot) (y : Proc)
    (hlife : y.state.life = (s.proc q).state.life) (hparent : y.parent = (s.proc q).parent)
    (hpid : y.pid = (s.proc q).pid) : Unseen s (s.setProc q y) := by
  refine ⟨?_, fun _ _ hm => ⟨hm, rfl⟩, fun p => ?_, rfl⟩
  · rw [lineage_setLife s q y hparent, hlife, setLife_self]
  · unfold ProcSys.setProc
    dsimp only
    by_cases hp : p = q
    · rw [hp, update_self]; exact hpid
    · rw [update_of_ne hp]

/-- Locks are not seen. -/
theorem Unseen.locks (h : Unseen s s₁) (hproc : s'.proc = s₁.proc) (hpc : s'.pc = s₁.pc)
    (hborn : s'.born = s₁.born) (hbirths : s'.births = s₁.births) (hfreed : s'.freed = s₁.freed)
    (hnext : s'.nextpid = s₁.nextpid) : Unseen s s' := by
  have hl : s'.lineage = s₁.lineage := by
    unfold ProcSys.lineage
    rw [hproc, hborn, hbirths, hfreed]
  refine ⟨hl.trans h.lineage, hpc ▸ h.making, fun p => ?_, hnext.trans h.nextpid⟩
  rw [hproc]
  exact h.pid p

theorem state_unused (s : ProcSys) (p : Slot) : (s.proc p).state = .UNUSED ↔ s.lineage.life p = .unused := by
  show (s.proc p).state = .UNUSED ↔ (s.proc p).state.life = .unused
  cases (s.proc p).state <;> exact ⟨fun he => by cases he <;> rfl, fun he => by cases he <;> rfl⟩

variable (h : s.TreeInv)
include h

theorem TreeInv.unseen (hu : Unseen s s') : s'.TreeInv := by
  have hborn : s'.born = s.born := congrArg Lib.Lineage.born hu.lineage
  have hbirths : s'.births = s.births := congrArg Lib.Lineage.births hu.lineage
  refine ⟨hu.lineage ▸ h.family, ?_, fun p hp => ?_, ?_⟩
  · rw [hu.lineage]
    exact h.fork.keep hu.making fun _ _ _ => ⟨rfl, rfl, rfl, rfl, rfl⟩
  · rw [ne_eq, state_unused, hu.lineage, ← state_unused] at hp
    rw [hu.pid, hborn]
    exact h.pid p hp
  · rw [hu.nextpid, hbirths]
    exact h.nextpid

/-- Pids and birth numbers go together where no process is born. -/
theorem TreeInv.of_step (hst : Lib.Lineage.Step initproc s.lineage s'.lineage)
    (hfork : ForkInv s'.lineage s'.pc) (hborn : s'.born = s.born) (hbirths : s'.births = s.births)
    (hnext : s'.nextpid = s.nextpid) (hpid : ∀ p, (s'.proc p).state ≠ .UNUSED →
      (s.proc p).state ≠ .UNUSED ∧ (s'.proc p).pid = (s.proc p).pid) : s'.TreeInv := by
  refine ⟨h.family.step hst, hfork, fun p hp => ?_, ?_⟩
  · obtain ⟨hold, hsame⟩ := hpid p hp
    rw [hsame, hborn]
    exact h.pid p hold
  · rw [hnext, hbirths]
    exact h.nextpid

/-- The same for a step that changes one process of the table. -/
theorem TreeInv.setProc {y : Proc} (hproc : s'.proc = update s.proc q y)
    (hst : Lib.Lineage.Step initproc s.lineage s'.lineage)
    (hfork : ForkInv s'.lineage s'.pc) (hborn : s'.born = s.born) (hbirths : s'.births = s.births)
    (hnext : s'.nextpid = s.nextpid)
    (hpid : y.state ≠ .UNUSED → (s.proc q).state ≠ .UNUSED ∧ y.pid = (s.proc q).pid) : s'.TreeInv := by
  refine h.of_step hst hfork hborn hbirths hnext fun p => ?_
  rw [hproc]
  by_cases hp : p = q
  · rw [hp, update_self]; exact hpid
  · rw [update_of_ne hp]; exact fun hu => ⟨hu, rfl⟩

/-! ## §3. The steps that the lineage sees. -/

omit h in
/-- A maker other than `p` makes another process than `p` does. -/
theorem making_goto {r n : Slot} (hm : ((s.goto p c).pc r).making = some n) (hc : c.making = none) :
    (s.pc r).making = some n ∧ r ≠ p := by
  refine ⟨(noNew_goto s p hc r n hm).1, ?_⟩
  rintro rfl
  rw [pc_goto, hc] at hm
  cases hm

variable {i : Nat}

theorem TreeInv.alloc (hpc : s.pc p = .forkScan i)
    (hrun : (s.proc p).state = .RUNNING) (hq : (s.proc q).state = .UNUSED) :
    (((s.allocpid q).acquire p q).goto p (.forkFound q)).TreeInv := by
  have hlin : (((s.allocpid q).acquire p q).goto p (.forkFound q)).lineage
      = (s.lineage.setLife q .new).numbered q :=
    congrArg (Lib.Lineage.numbered · q)
      (s.lineage_setLife q { s.proc q with pid := s.nextpid, state := .USED } rfl)
  have hunused : s.lineage.life q = .unused := (s.state_unused q).mp hq
  have halive : s.lineage.life p = .alive := by
    show (s.proc p).state.life = .alive
    rw [hrun]
    rfl
  have hpq : p ≠ q := by
    rintro rfl
    exact nomatch hunused.symm.trans halive
  have hborn : ∀ r, r ≠ q → update s.born q s.births r = s.born r :=
    fun r hr => update_of_ne hr ..
  have hlife : ∀ r, r ≠ q → update s.lineage.life q .new r = s.lineage.life r :=
    fun r hr => update_of_ne hr ..
  -- nobody was making a process in an unused slot
  have hfresh : ∀ r n, (s.pc r).making = some n → n ≠ q ∧ r ≠ q := by
    intro r n hm
    obtain ⟨hnew, hal, -, -⟩ := h.fork.made r n hm
    refine ⟨?_, ?_⟩
    · rintro rfl
      exact nomatch hunused.symm.trans hnew
    · rintro rfl
      exact nomatch hunused.symm.trans hal
  have hcases : ∀ r n, ((((s.allocpid q).acquire p q).goto p (.forkFound q)).pc r).making = some n →
      (r = p ∧ n = q) ∨ (r ≠ p ∧ (s.pc r).making = some n) := by
    intro r n hm
    have hm : (update s.pc p (.forkFound q) r).making = some n := hm
    by_cases hr : r = p
    · rw [hr, update_self] at hm
      exact .inl ⟨hr, (Option.some.inj hm).symm⟩
    · rw [update_of_ne hr] at hm
      exact .inr ⟨hr, hm⟩
  refine ⟨?_, ⟨fun r n hm => ?_, fun r r' n hm hm' => ?_⟩, fun r hr => ?_, ?_⟩
  · rw [hlin]
    exact h.family.birth hunused
  · rw [hlin]
    show update s.lineage.life q .new n = .new
      ∧ update s.lineage.life q .new r = .alive
      ∧ update s.born q s.births r < update s.born q s.births n
      ∧ s.lineage.parent n = if (update s.pc p (.forkFound q) r).adopted then some r else none
    rcases hcases r n hm with ⟨rfl, rfl⟩ | ⟨hrp, hm⟩
    · rw [update_self, update_self, update_self, hlife r hpq,
        hborn r hpq]
      refine ⟨rfl, halive, h.family.born_lt r (by rw [halive]; exact nofun), ?_⟩
      exact h.family.unused n hunused
    · obtain ⟨hn, hr⟩ := hfresh r n hm
      rw [hlife n hn, hlife r hr, hborn r hr, hborn n hn, update_of_ne hrp]
      exact h.fork.made r n hm
  · rcases hcases r n hm with ⟨hr, hn⟩ | ⟨hr, hm₁⟩ <;>
      rcases hcases r' n hm' with ⟨hr', hn'⟩ | ⟨hr', hm₁'⟩
    · rw [hr, hr']
    · exact absurd hn (hfresh r' n hm₁').1
    · exact absurd hn' (hfresh r n hm₁).1
    · exact h.fork.unique r r' n hm₁ hm₁'
  · have hr : (update s.proc q { s.proc q with pid := s.nextpid, state := .USED } r).state
        ≠ .UNUSED := hr
    show (update s.proc q { s.proc q with pid := s.nextpid, state := .USED } r).pid
      = BitVec.ofNat 32 (update s.born q s.births r)
    by_cases hrq : r = q
    · rw [hrq, update_self, update_self]
      exact h.nextpid
    · rw [update_of_ne hrq] at hr
      rw [update_of_ne hrq, update_of_ne hrq]
      exact h.pid r hr
  · show s.nextpid + 1 = BitVec.ofNat 32 (s.births + 1)
    rw [h.nextpid, BitVec.ofNat_add]
    rfl

/-- `fork` is done with the process it made. -/
theorem TreeInv.fork_done (hm : (s.pc p).making = some np) (hnew : s.lineage.life np = .new) (x : Lib.Life) :
    ForkInv (s.lineage.setLife np x) (s.goto p .run).pc := by
  refine h.fork.keep (noNew_goto s p rfl) fun r n hgoto => ?_
  obtain ⟨hr, hrp⟩ := making_goto (s := s) hgoto rfl
  have hn : n ≠ np := by
    rintro rfl
    exact hrp (h.fork.unique r p n hr hm)
  have hrn : r ≠ np := by
    rintro rfl
    exact nomatch hnew.symm.trans (h.fork.made r n hr).2.1
  exact ⟨update_of_ne hn .., rfl, rfl, update_of_ne hrn .., rfl⟩

/-- `fork` fails after `allocproc`. -/
theorem TreeInv.forkFail (hpc : s.pc p = .forkFound np) :
    (((s.freeproc np).release np).goto p .run).TreeInv := by
  have hm : (s.pc p).making = some np := by rw [hpc]; rfl
  obtain ⟨hnew, -, -, hpar⟩ := h.fork.made p np hm
  rw [hpc, if_neg (show ¬ (Pc.forkFound np).adopted = true from nofun)] at hpar
  have hlin : (((s.freeproc np).release np).goto p .run).lineage
      = s.lineage.setLife np .unused :=
    s.lineage_setLife np ⟨.UNUSED, none, false, 0, 0, none⟩ hpar.symm
  refine h.setProc rfl ?_ ?_ rfl rfl rfl (fun hu => absurd rfl hu)
  · rw [hlin]
    exact .drop np hnew hpar
  rw [hlin]
  exact h.fork_done hm hnew _

/-- `fork` sets the parent of the process it has made. -/
theorem TreeInv.forkParent (hpc : s.pc p = .forkParent np) :
    ((s.setParent np (some p)).goto p (.forkReady np)).TreeInv := by
  have hm : (s.pc p).making = some np := by rw [hpc]; rfl
  obtain ⟨hnew, halive, hborn, -⟩ := h.fork.made p np hm
  have hlin : ((s.setParent np (some p)).goto p (.forkReady np)).lineage
      = s.lineage.setParent np (some p) :=
    s.lineage_setParent np { s.proc np with parent := some p } rfl
  have hcases : ∀ r n, (((s.setParent np (some p)).goto p (.forkReady np)).pc r).making = some n →
      (s.pc r).making = some n := by
    intro r n hr
    have hr : (update s.pc p (.forkReady np) r).making = some n := hr
    by_cases hrp : r = p
    · rw [hrp, update_self] at hr
      rw [hrp, hm]
      exact hr
    · rw [update_of_ne hrp] at hr
      exact hr
  refine h.setProc rfl ?_ ⟨fun r n hr => ?_, fun r r' n hr hr' => ?_⟩ rfl rfl rfl
    (fun hu => ⟨hu, rfl⟩)
  · rw [hlin]
    exact .adopt np p hnew halive hborn
  · obtain ⟨hn, hr', hb, hpar⟩ := h.fork.made r n (hcases r n hr)
    rw [hlin]
    refine ⟨hn, hr', hb, ?_⟩
    show update s.lineage.parent np (some p) n
      = if (update s.pc p (.forkReady np) r).adopted then some r else none
    by_cases hrp : r = p
    · have hnn : n = np := by
        have := hcases r n hr
        rw [hrp, hm] at this
        exact (Option.some.inj this).symm
      rw [hrp, hnn, update_self, update_self]
      rfl
    · have hnn : n ≠ np := by
        rintro rfl
        exact hrp (h.fork.unique r p n (hcases r n hr) hm)
      rw [update_of_ne hrp, update_of_ne hnn]
      exact hpar
  · exact h.fork.unique r r' n (hcases r n hr) (hcases r' n hr')

theorem TreeInv.forkReady (hpc : s.pc p = .forkReady np) :
    ((s.setState np .RUNNABLE).goto p .run).TreeInv := by
  have hm : (s.pc p).making = some np := by rw [hpc]; rfl
  obtain ⟨hnew, -, -, hpar⟩ := h.fork.made p np hm
  rw [hpc, if_pos (show (Pc.forkReady np).adopted = true from rfl)] at hpar
  have hused : (s.proc np).state ≠ .UNUSED := by
    rw [ne_eq, state_unused, hnew]
    exact nofun
  have hlin : ((s.setState np .RUNNABLE).goto p .run).lineage = s.lineage.setLife np .alive :=
    s.lineage_setLife np { s.proc np with state := .RUNNABLE } rfl
  refine h.setProc rfl ?_ ?_ rfl rfl rfl (fun _ => ⟨hused, rfl⟩)
  · rw [hlin]
    exact .start np p hnew hpar
  rw [hlin]
  exact h.fork_done hm hnew _

variable {status : BitVec 32}

theorem TreeInv.reparent {j : Nat} (hpar : (s.proc q).parent = some p) :
    ((s.setParent q (some initproc)).goto p (.reparentWake status i j)).TreeInv := by
  have hlin : ((s.setParent q (some initproc)).goto p (.reparentWake status i j)).lineage
      = s.lineage.setParent q (some initproc) :=
    s.lineage_setParent q { s.proc q with parent := some initproc } rfl
  refine h.setProc rfl ?_ ?_ rfl rfl rfl (fun hu => ⟨hu, rfl⟩)
  · rw [hlin]
    exact .toRoot q p hpar
  rw [hlin]
  refine h.fork.keep (noNew_goto s p rfl) fun r n hgoto => ?_
  obtain ⟨hr, hrp⟩ := making_goto (s := s) hgoto rfl
  -- a process in the making is not a child of an exiting one
  have hn : n ≠ q := by
    rintro rfl
    have hmade := (h.fork.made r n hr).2.2.2
    rw [show s.lineage.parent n = some p from hpar] at hmade
    split at hmade
    · exact hrp (Option.some.inj hmade).symm
    · cases hmade
  exact ⟨rfl, update_of_ne hn .., rfl, rfl, rfl⟩

theorem TreeInv.exitZombie (hw : s.WaitInv)
    (hpc : s.pc p = .exitZombie status) (hrun : (s.proc p).state = .RUNNING) :
    (((s.setProc p { s.proc p with
      xstate := status, state := .ZOMBIE }).acquire p p).releaseWait.goto p .zombie).TreeInv := by
  obtain ⟨hinit, -, hno, -⟩ := hw.guard hpc rfl
  have halive : s.lineage.life p = .alive := by
    show (s.proc p).state.life = .alive
    rw [hrun]
    rfl
  have hlin : (((s.setProc p { s.proc p with
      xstate := status, state := .ZOMBIE }).acquire p p).releaseWait.goto p .zombie).lineage
      = s.lineage.setLife p .zombie :=
    s.lineage_setLife p { s.proc p with xstate := status, state := .ZOMBIE } rfl
  refine h.setProc rfl ?_ ?_ rfl rfl rfl (fun _ => ⟨by rw [hrun]; exact nofun, rfl⟩)
  · rw [hlin]
    exact .die p hinit halive hno
  rw [hlin]
  refine h.fork.keep (noNew_goto s p rfl) fun r n hgoto => ?_
  obtain ⟨hr, hrp⟩ := making_goto (s := s) hgoto rfl
  have hn : n ≠ p := by
    rintro rfl
    exact nomatch halive.symm.trans (h.fork.made r n hr).1
  exact ⟨update_of_ne hn .., rfl, rfl, update_of_ne hrp .., rfl⟩

theorem TreeInv.reap (hz : (s.proc q).state = .ZOMBIE) :
    ({ s.freeproc q with freed := s.born q :: s.freed }.releaseWait.goto p .run).TreeInv := by
  have hzombie : s.lineage.life q = .zombie := by
    show (s.proc q).state.life = .zombie
    rw [hz]
    rfl
  have hlin : ({ s.freeproc q with freed := s.born q :: s.freed }.releaseWait.goto p .run).lineage
      = ((s.lineage.setLife q .unused).setParent q none).record q :=
    congrArg (Lib.Lineage.record · q)
      (s.lineage_setProc q ⟨.UNUSED, none, false, 0, 0, none⟩)
  refine h.setProc rfl ?_ ?_ rfl rfl rfl (fun hu => absurd rfl hu)
  · rw [hlin]
    exact .reap q hzombie
  rw [hlin]
  refine h.fork.keep (noNew_goto s p rfl) fun r n hgoto => ?_
  obtain ⟨hr, -⟩ := making_goto (s := s) hgoto rfl
  obtain ⟨hnew, halive, -, -⟩ := h.fork.made r n hr
  have hn : n ≠ q := by
    rintro rfl
    exact nomatch hzombie.symm.trans hnew
  have hrq : r ≠ q := by
    rintro rfl
    exact nomatch hzombie.symm.trans halive
  exact ⟨update_of_ne hn .., update_of_ne hn .., rfl,
    update_of_ne hrq .., rfl⟩

omit h

/-! ## §4. Whole runs. -/

theorem life_of_sleeping {x y : ProcState} (h : x = .SLEEPING) (hy : y = .RUNNABLE) : y.life = x.life := by
  rw [h, hy]
  rfl

theorem unseen_wakeupTurn {me : Slot} {chan : Option SleepChan}
    (hst : s.wakeupTurn me q chan = .ok s') : Unseen s s' := by
  have hrefl : Unseen s s := ⟨rfl, fun _ _ hm => ⟨hm, rfl⟩, fun _ => rfl, rfl⟩
  unfold ProcSys.wakeupTurn at hst
  split at hst
  · cases hst; exact hrefl
  split at hst
  · cases hst
  · split at hst
    · next hsl =>
      cases hst
      exact unseen_setProc s q _ (life_of_sleeping hsl.1 rfl) rfl rfl
    · cases hst; exact hrefl

theorem unseen_killTurn {pid : BitVec 32} (hst : s.killTurn p q pid i = .ok s') : Unseen s s' := by
  unfold ProcSys.killTurn at hst
  split at hst
  · cases hst
  split at hst
  · cases hst
    refine Unseen.trans (unseen_setProc s q { s.proc q with
      killed := true
      state := if (s.proc q).state = .SLEEPING then .RUNNABLE else (s.proc q).state } ?_ rfl rfl)
      (unseen_goto _ p .run rfl)
    split
    · next hsl => exact life_of_sleeping hsl rfl
    · rfl
  · cases hst
    exact unseen_goto s p _ rfl

include h

theorem TreeInv.waitTurn {havekids copied : Bool}
    (hst : s.waitTurn p q i havekids copied = .ok s') : s'.TreeInv := by
  unfold ProcSys.waitTurn at hst
  split at hst
  · split at hst
    · cases hst
    split at hst
    · next hz =>
      split at hst
      · cases hst; exact h.reap hz
      · cases hst
        exact h.unseen ((unseen_goto s p .run rfl).locks rfl rfl rfl rfl rfl rfl)
    · cases hst; exact h.unseen (unseen_goto s p _ rfl)
  · cases hst; exact h.unseen (unseen_goto s p _ rfl)

theorem TreeInv.next (hw : s.WaitInv) {ok : Bool}
    (hrun : (s.proc p).state = .RUNNING) (hst : s.next p ok = .ok s') : s'.TreeInv := by
  unfold ProcSys.next at hst
  cases hpc : s.pc p with
  | forkScan i =>
    rw [hpc] at hst
    dsimp only at hst
    split at hst
    · unfold ProcSys.allocTurn at hst
      split at hst
      · cases hst
      · split at hst
        · next hq => cases hst; exact h.alloc hpc hrun hq
        · cases hst; exact h.unseen (unseen_goto s p _ rfl)
    · cases hst; exact h.unseen (unseen_goto s p .run rfl)
  | forkFound np =>
    rw [hpc] at hst
    dsimp only at hst
    split at hst
    · -- the lock of the new process is released, nothing else
      cases hst
      refine h.unseen ⟨rfl, fun r n hr => ?_, fun _ => rfl, rfl⟩
      have hr : (update s.pc p (.forkParent np) r).making = some n := hr
      show (s.pc r).making = some n
        ∧ (update s.pc p (.forkParent np) r).adopted = (s.pc r).adopted
      by_cases hrp : r = p
      · rw [hrp, update_self] at hr ⊢
        rw [hpc]
        exact ⟨hr, rfl⟩
      · rw [update_of_ne hrp] at hr ⊢
        exact ⟨hr, rfl⟩
    · cases hst; exact h.forkFail hpc
  | forkParent np =>
    rw [hpc] at hst
    obtain ⟨-, rfl⟩ := Lib.guard_ok hst
    exact h.forkParent hpc
  | forkReady np =>
    rw [hpc] at hst
    dsimp only at hst
    split at hst
    · cases hst
    · cases hst; exact h.forkReady hpc
  | reparent status i =>
    rw [hpc] at hst
    dsimp only at hst
    split at hst
    · cases hst
      unfold ProcSys.reparentTurn
      split
      · next hpar => exact h.reparent hpar
      · exact h.unseen (unseen_goto s p _ rfl)
    · cases hst; exact h.unseen (unseen_goto s p _ rfl)
  | reparentWake status i j | exitWake status chan j =>
    rw [hpc] at hst
    dsimp only at hst
    split at hst
    · obtain ⟨s₁, hwake, hst⟩ := Lib.bind_ok hst
      cases hst
      exact h.unseen ((unseen_wakeupTurn hwake).trans (unseen_goto s₁ p _ rfl))
    · cases hst; exact h.unseen (unseen_goto s p _ rfl)
  | exitZombie status =>
    rw [hpc] at hst
    dsimp only at hst
    split at hst
    · cases hst
    · cases hst; exact h.exitZombie hw hpc hrun
  | waitScan i havekids =>
    rw [hpc] at hst
    dsimp only at hst
    split at hst
    · exact h.waitTurn hst
    · split at hst
      · cases hst
        exact h.unseen ((unseen_goto s p .run rfl).locks rfl rfl rfl rfl rfl rfl)
      · cases hst; exact h.unseen (unseen_goto s p .waitSleep rfl)
  | waitSleep =>
    rw [hpc] at hst
    dsimp only at hst
    split at hst
    · cases hst
    · cases hst
      exact h.unseen ((unseen_goto s p .sleepLocked rfl).locks rfl rfl rfl rfl rfl rfl)
  | sleepLocked =>
    rw [hpc] at hst
    cases hst
    have hset := unseen_setProc s p { s.proc p with chan := some (.proc p), state := .SLEEPING }
      (by rw [hrun]; rfl) rfl rfl
    exact h.unseen ((hset.trans (unseen_goto _ p .waiting rfl)).locks rfl rfl rfl rfl rfl rfl)
  | waitLock =>
    rw [hpc] at hst
    obtain ⟨-, rfl⟩ := Lib.guard_ok hst
    exact h.unseen ((unseen_goto s p (.waitScan 0 false) rfl).locks rfl rfl rfl rfl rfl rfl)
  | kill pid i =>
    rw [hpc] at hst
    dsimp only at hst
    split at hst
    · exact h.unseen (unseen_killTurn hst)
    · cases hst; exact h.unseen (unseen_goto s p .run rfl)
  | run | asleep | zombie | waiting => rw [hpc] at hst; cases hst

omit h in
theorem unseen_resume (hr : (s.proc p).state = .RUNNABLE) : Unseen s (s.resume p) := by
  have hset := unseen_setProc s p { s.proc p with chan := none, state := .RUNNING }
    (by rw [hr]; rfl) rfl rfl
  unfold ProcSys.resume
  split
  · exact hset.trans (unseen_goto _ p .run rfl)
  · exact hset.trans (unseen_goto _ p .waitLock rfl)
  · exact unseen_setProc s p _ (by rw [hr]; rfl) rfl rfl

theorem TreeInv.step (hw : s.WaitInv) {i : ProcStep} (hst : s.step i = .ok s') : s'.TreeInv := by
  cases i with
  | dispatch p =>
    obtain ⟨hok, rfl⟩ := Lib.guard_ok hst
    exact h.unseen (unseen_resume hok.2)
  | yield p =>
    obtain ⟨hok, rfl⟩ := Lib.guard_ok hst
    exact h.unseen (unseen_setProc s p _ (by rw [hok.2.1]; rfl) rfl rfl)
  | retire p =>
    obtain ⟨-, rfl⟩ := Lib.guard_ok hst
    exact h.unseen ((unseen_goto s p .run rfl).locks rfl rfl rfl rfl rfl rfl)
  | sleep p addr =>
    obtain ⟨hok, rfl⟩ := Lib.guard_ok hst
    have hset := unseen_setProc s p
      { s.proc p with chan := some (.other addr), state := .SLEEPING }
      (by rw [hok.1.1]; rfl) rfl rfl
    exact h.unseen (hset.trans (unseen_goto _ p .asleep rfl))
  | wakeup addr q =>
    obtain ⟨hok, rfl⟩ := Lib.guard_ok hst
    exact h.unseen (unseen_setProc s q _ (life_of_sleeping hok.2.1 rfl) rfl rfl)
  | setkilled p =>
    obtain ⟨-, rfl⟩ := Lib.guard_ok hst
    exact h.unseen (unseen_setProc s p _ rfl rfl rfl)
  | fork p | kill p pid =>
    obtain ⟨-, rfl⟩ := Lib.guard_ok hst
    exact h.unseen (unseen_goto s p _ rfl)
  | exit p status =>
    simp only [ProcSys.step] at hst
    split at hst
    · split at hst
      · cases hst
      · split at hst
        · cases hst
          exact h.unseen ((unseen_goto s p (.reparent status 0) rfl).locks rfl rfl rfl rfl rfl rfl)
        · cases hst
    · cases hst
  | wait p =>
    obtain ⟨-, rfl⟩ := Lib.guard_ok hst
    exact h.unseen ((unseen_goto s p (.waitScan 0 false) rfl).locks rfl rfl rfl rfl rfl rfl)
  | next p ok =>
    simp only [ProcSys.step] at hst
    split at hst
    · next hrun => exact h.next hw hrun hst
    · cases hst

omit h

theorem boot_unused (p : Slot) (hp : p ≠ initproc) : boot.proc p = ⟨.UNUSED, none, false, 0, 0, none⟩ := by
  unfold boot
  dsimp only
  rw [update_of_ne hp]

theorem boot_treeInv : boot.TreeInv := by
  have hinit : boot.proc initproc = ⟨.RUNNABLE, none, false, 0, 1, none⟩ := by
    unfold boot
    dsimp only
    rw [update_self]
  have hlife : ∀ p, p ≠ initproc → boot.lineage.life p = .unused := by
    intro p hp
    show (boot.proc p).state.life = .unused
    rw [boot_unused p hp]
    rfl
  have hparent : ∀ p, boot.lineage.parent p = none := by
    intro p
    show (boot.proc p).parent = none
    by_cases hp : p = initproc
    · rw [hp, hinit]
    · rw [boot_unused p hp]
  have honly : ∀ p, boot.lineage.life p ≠ .unused → p = initproc := fun p hp =>
    not_not.mp fun hne => hp (hlife p hne)
  refine ⟨⟨?_, hparent initproc, fun p hp hne => absurd (honly p hp) hne, fun p q hq => ?_,
    fun p hp hl => ?_, fun p _ => hparent p, fun p _ => Nat.lt_succ_self 1, fun p p' hp hp' _ => ?_,
    List.nodup_nil, nofun⟩, ⟨nofun, nofun⟩, fun p hp => ?_, rfl⟩
  · show (boot.proc initproc).state.life = .alive
    rfl
  · exact nomatch (hparent p).symm.trans hq
  · rw [hlife p hp] at hl
    exact hl.elim nofun nofun
  · rw [honly p hp, honly p' hp']
  · rw [ne_eq, state_unused] at hp
    rw [honly p hp, hinit]
    rfl

theorem Reachable.treeInv (h : s.Reachable) : s.TreeInv ∧ s.WaitInv :=
  Lib.Reach.invariant (I := fun s => s.TreeInv ∧ s.WaitInv)
    (fun _ he => he ▸ ⟨boot_treeInv, boot_waitInv⟩)
    (fun _ _ _ hs _ hst => ⟨hs.1.step hs.2 hst, hs.2.step hst⟩) h

/-- Pids are the birth numbers until `nextpid` wraps. -/
theorem TreeInv.pid_inj (h : s.TreeInv) (hwrap : s.births ≤ 2 ^ 32)
    (hp : (s.proc p).state ≠ .UNUSED) (hq : (s.proc q).state ≠ .UNUSED)
    (he : (s.proc p).pid = (s.proc q).pid) : p = q := by
  have hlp : s.lineage.life p ≠ .unused := fun hl => hp ((s.state_unused p).mpr hl)
  have hlq : s.lineage.life q ≠ .unused := fun hl => hq ((s.state_unused q).mpr hl)
  have hbp : s.born p < 2 ^ 32 := Nat.lt_of_lt_of_le (h.family.born_lt p hlp) hwrap
  have hbq : s.born q < 2 ^ 32 := Nat.lt_of_lt_of_le (h.family.born_lt q hlq) hwrap
  rw [h.pid p hp, h.pid q hq] at he
  have hnat := congrArg BitVec.toNat he
  rw [BitVec.toNat_ofNat, BitVec.toNat_ofNat, Nat.mod_eq_of_lt hbp, Nat.mod_eq_of_lt hbq] at hnat
  exact h.family.born_inj p q hlp hlq hnat

/-- **The process tree.**  In every state of every interleaving
  * a process other than `init` that is not just being made has a parent, a
    process that is older and neither unused nor a zombie;
  * following parents leads to `init`;
  * live processes have distinct pids as long as `nextpid` has not wrapped;
  * no process has been freed by two calls of `wait` or `waitx`. -/
theorem process_tree (h : s.Reachable) : (∀ p, p ≠ initproc → (s.proc p).state ≠ .UNUSED → (s.proc p).state ≠ .USED →
      ∃ q, (s.proc p).parent = some q ∧ (s.proc q).state ≠ .UNUSED ∧ (s.proc q).state ≠ .ZOMBIE ∧ s.born q < s.born p)
    ∧ (s.proc initproc).parent = none ∧ (∀ p, (s.proc p).state ≠ .UNUSED → (s.proc p).state ≠ .USED →
      ∃ n, s.lineage.climb n p = some initproc)
    ∧ (s.births ≤ 2 ^ 32 → ∀ p q, (s.proc p).state ≠ .UNUSED → (s.proc q).state ≠ .UNUSED →
      (s.proc p).pid = (s.proc q).pid → p = q)
    ∧ s.freed.Nodup ∧ (∀ n ∈ s.freed, ∀ p, (s.proc p).state ≠ .UNUSED → s.born p ≠ n) := by
  have hinv := h.treeInv.1
  have hlife : ∀ p, (s.proc p).state ≠ .UNUSED → (s.proc p).state ≠ .USED →
      s.lineage.life p = .alive ∨ s.lineage.life p = .zombie := by
    intro p hu hn
    show (s.proc p).state.life = .alive ∨ (s.proc p).state.life = .zombie
    cases hs : (s.proc p).state with
    | UNUSED => exact absurd hs hu
    | USED => exact absurd hs hn
    | SLEEPING | RUNNABLE | RUNNING => exact .inl rfl
    | ZOMBIE => exact .inr rfl
  refine ⟨fun p hp hu hn => ?_, hinv.family.root_parent, fun p hu hn =>
    hinv.family.climb p (hlife p hu hn), fun hwrap p q hp hq he => hinv.pid_inj hwrap hp hq he,
    hinv.family.reaped.1, fun n hn p hp => ?_⟩
  · cases hpar : (s.proc p).parent with
    | none => exact absurd hpar (hinv.family.child p hp (hlife p hu hn))
    | some q =>
      obtain ⟨halive, hborn⟩ := hinv.family.parent p q hpar
      have halive : (s.proc q).state.life = .alive := halive
      refine ⟨q, rfl, fun hs => ?_, fun hs => ?_, hborn⟩
      · rw [hs] at halive
        cases halive
      · rw [hs] at halive
        cases halive
  · exact (hinv.family.reaped.2 n hn).2 p fun hl => hp ((s.state_unused p).mpr hl)

/-- `init` forks a child, which exits and is waited for. -/
def reapRun : List ProcStep :=
  [.dispatch 0, .fork 0] ++ List.replicate 5 (.next 0 true) ++ [.dispatch 1, .exit 1 7]
    ++ List.replicate (2 * NPROC + 3) (.next 1 true) ++ [.retire 1, .wait 0, .next 0 true, .next 0 true]

theorem process_tree_reapRun : ∃ s : ProcSys, s.Reachable ∧ s.freed = [2] ∧ s.freed.Nodup
      ∧ ∀ p, (s.proc p).state ≠ .UNUSED → s.born p ≠ 2 := by
  have hreach : ∃ s : ProcSys, s.Reachable ∧ decide (s.freed = [2]) = true :=
    Lib.Reach.of_reaches reapRun _ rfl (by decide +kernel)
  obtain ⟨s, hs, htest⟩ := hreach
  have hfreed := of_decide_eq_true htest
  obtain ⟨-, -, -, -, hnodup, hgone⟩ := process_tree hs
  exact ⟨s, hs, hfreed, hnodup, hgone 2 (by rw [hfreed]; exact List.mem_cons_self)⟩

end ProcSys

end Xv6
