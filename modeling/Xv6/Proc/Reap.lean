/-
  Xv6.Proc.Reap — `wait` and `waitx` with their stores to user memory
  (`wait`, `waitx`, `freeproc` of `kernel/proc.c`, `sys_wait`, `sys_waitx` of
  `kernel/sysproc.c`, `copyout` of `kernel/vm.c`).

  A call scans the process table for a zombie of the caller, stores its exit
  status and frees it; without a zombie it sleeps and scans again.  What the
  others do while it sleeps is left open: a call is given the states in which
  it scans, one after the other.

  `wait` stores before it frees, so a failing store loses nothing.
  `sys_waitx` stores the times after `waitx` has freed the child: when one of
  these stores fails, it returns -1 and the child is gone (`status_lost`).

  Main results: `reaping_atomic` and `times_determined`, on when reaping is
  atomic and when the times do not depend on the kernel stack.
-/
import Xv6.Proc.Isolation
import Xv6.Proc.State

namespace Xv6.Reap

open Spaces (Space Resolves)

/-! ## §1. The functions. -/

/-- What `wait` reads of `struct proc`. -/
structure Entry where
  state : ProcState
  pid : Int
  parent : Option Slot
  killed : Bool
  xstate : UInt32
  rtime : UInt32
  ctime : UInt32
  etime : UInt32

/-- The process table and the address spaces. -/
structure Sys where
  mem : Spaces.Sys
  proc : Slot → Entry

/-- An `int` in memory. -/
def intBytes (v : UInt32) : List UInt8 := (List.range 4).map (Lib.leByte v.toNat)

/-- `*wtime` and `*rtime` of `waitx` -/
def Entry.times (x : Entry) : UInt32 × UInt32 := (x.etime - x.ctime - x.rtime, x.rtime)

/-- The fields that `freeproc` clears. -/
def Entry.freed (x : Entry) : Entry := { x with state := .UNUSED, pid := 0, parent := none, killed := false, xstate := 0 }

section

variable (L : Layout)

/-- `copyout(p->pagetable, dstva, src, len)` -/
def copyout (s : Sys) (p : Slot) (dstva : Nat) (src : List UInt8) : Result (Sys × Int) :=
  match s.mem.proc p with
  | none => .error .null
  | some sp => do
      let (km, pt, r) ← Xv6.copyout L s.mem.km sp.pagetable dstva src
      .ok ({ s with mem := s.mem.put km p (some { sp with pagetable := pt }) }, r)

/-- `freeproc(c)` -/
def freeproc (s : Sys) (c : Slot) : Result Sys := do
  let proc := Function.update s.proc c (s.proc c).freed
  match s.mem.proc c with
  | none => .ok { s with proc := proc }
  | some sp => do
      let km ← Spaces.freeproc L s.mem.km sp
      .ok { mem := s.mem.put km c none, proc := proc }

/-- The scan: the first zombie of `p`, if any, and `havekids`. -/
def scan (s : Sys) (p : Slot) : List Slot → Bool → Option Slot × Bool
  | [], havekids => (none, havekids)
  | c :: cs, havekids =>
    if (s.proc c).parent = some p then
      if (s.proc c).state = .ZOMBIE then (some c, true) else scan s p cs true
    else scan s p cs havekids

/-- What is done with the zombie `c`. -/
def report (s : Sys) (p c : Slot) (addr : Nat) : Result (Sys × Int) :=
  if addr ≠ 0 then do
    let (s₁, r) ← copyout L s p addr (intBytes (s.proc c).xstate)
    if r < 0 then .ok (s₁, -1)
    else do
      let s₂ ← freeproc L s₁ c
      .ok (s₂, (s.proc c).pid)
  else do
    let s₁ ← freeproc L s c
    .ok (s₁, (s.proc c).pid)

/-- A call that has returned: the states before and after its last scan, the value returned, and the zombie found. -/
structure Call where
  before : Sys
  after : Sys
  ret : Int
  found : Option Slot

/-- `wait(addr)` of `p`, which scans in the states `ss`; `none` if it is still asleep. -/
def wait (p : Slot) (addr : Nat) : List Sys → Result (Option Call)
  | [] => .ok none
  | s :: ss =>
    match scan s p (List.finRange NPROC) false with
    | (some c, _) => do
        let (s', r) ← report L s p c addr
        .ok (some ⟨s, s', r, some c⟩)
    | (none, havekids) =>
      if !havekids || (s.proc p).killed then .ok (some ⟨s, s, -1, none⟩) else wait p addr ss

/-- `waitx(addr, &wtime, &rtime)`: the same loop, and the times of the zombie found. -/
def waitx (p : Slot) (addr : Nat) (ss : List Sys) : Result (Option (Call × Option (UInt32 × UInt32))) := do
  let out ← wait L p addr ss
  .ok (out.map fun call => (call, call.found.map fun c => (call.before.proc c).times))

/-- The two stores of `sys_waitx`. -/
def storeTimes (s : Sys) (p : Slot) (addr1 addr2 : Nat) (times : UInt32 × UInt32) (ret : Int) : Result (Sys × Int) := do
  let (s₁, r₁) ← copyout L s p addr1 (intBytes times.1)
  if r₁ < 0 then .ok (s₁, -1)
  else do
    let (s₂, r₂) ← copyout L s₁ p addr2 (intBytes times.2)
    if r₂ < 0 then .ok (s₂, -1) else .ok (s₂, ret)

/-- `sys_waitx()`; `garbage` is what the variables `wtime` and `rtime` hold if `waitx` has not set them. -/
def sys_waitx (p : Slot) (addr addr1 addr2 : Nat) (garbage : UInt32 × UInt32) (ss : List Sys) : Result (Option Call) := do
  match ← waitx L p addr ss with
  | none => .ok none
  | some (call, times) => do
      let (s, r) ← storeTimes L call.after p addr1 addr2 (times.getD garbage) call.ret
      .ok (some { call with after := s, ret := r })

end

/-! ## §2. `copyout`. -/

section Copyout

variable {L : Layout} {km : Kmem} {pt : Pagetable} {dstva : Nat} {src : List UInt8}

/-- User pages other than page 0, which is what `copyout` asks for. -/
def Reaches (pt : Pagetable) (dstva len : Nat) : Prop := PGSIZE ≤ dstva ∧ allUser pt dstva len

theorem resolves_user {pt' : Pagetable} (h : Resolves pt pt') (v : Nat) : pt'.user v = pt.user v := by
  rcases h v with hsame | ⟨huser, hnew⟩
  · unfold Pagetable.user
    rw [hsame]
  · rw [huser, user_iff, hnew]
    exact ⟨(user_iff.mp huser).1, rfl, rfl⟩

theorem reaches_resolves {pt' : Pagetable} {len : Nat} (h : Resolves pt pt') : Reaches pt' dstva len ↔ Reaches pt dstva len := by
  unfold Reaches allUser
  simp only [resolves_user h]

/-- Pages that `copyout` can store to as they are: user pages other than page 0 that are not copy-on-write. -/
def Plain (pt : Pagetable) (dstva len : Nat) : Prop :=
  ∀ a, dstva ≤ a → a < dstva + len → PGSIZE ≤ a ∧ pt.user (a / PGSIZE) = true ∧ (pt.flat (a / PGSIZE)).flags.cow = false

theorem Plain.reaches {len : Nat} (h : Plain pt dstva len) (hlen : 0 < len) : Reaches pt dstva len :=
  ⟨(h dstva le_rfl (by omega)).1, fun a hle hlt => (h a hle hlt).2.1⟩

/-- Pages that have been copied are such pages too. -/
theorem Plain.resolves {pt' : Pagetable} {len : Nat} (h : Plain pt dstva len) (hres : Resolves pt pt') : Plain pt' dstva len := by
  intro a hle hlt
  obtain ⟨hpage, huser, hcow⟩ := h a hle hlt
  obtain ⟨hbound, -, -⟩ := user_iff.mp huser
  rcases hres (a / PGSIZE) with hsame | ⟨-, hnew⟩
  · unfold Pagetable.user at huser ⊢
    rw [hsame]
    exact ⟨hpage, huser, hcow⟩
  · rw [user_iff, hnew]
    exact ⟨hpage, ⟨hbound, rfl, rfl⟩, rfl⟩

/-- A store whose first page is not there, or cannot be copied, changes nothing. -/
theorem copyout_first_refused (hsrc : src ≠ []) (h : ¬ (PGSIZE ≤ dstva ∧ pt.user (dstva / PGSIZE) = true
      ∧ ((pt.flat (dstva / PGSIZE)).flags.cow = true → (kalloc km).2 ≠ none))) :
    Xv6.copyout L km pt dstva src = .ok (km, pt, -1) := by
  refine copyout_refused hsrc (.inr ?_)
  by_cases hno : PGROUNDDOWN dstva ≥ MAXVA ∨ PGROUNDDOWN dstva = 0 ∨ pt.user (PGROUNDDOWN dstva / PGSIZE) = false
  · exact cowfault_refuse hno
  simp only [not_or, not_le, Bool.not_eq_false] at hno
  obtain ⟨hva, hzero, huser⟩ := hno
  rw [cowfault_user hva hzero huser]
  rw [pagedown_div] at huser ⊢
  have hlow : PGSIZE ≤ dstva := by
    simp only [PGROUNDDOWN, PGSIZE] at hzero ⊢
    omega
  obtain ⟨hcow, hnone⟩ : (pt.flat (dstva / PGSIZE)).flags.cow = true ∧ (kalloc km).2 = none := by
    by_contra hc
    exact h ⟨hlow, huser, fun hcow hnone => hc ⟨hcow, hnone⟩⟩
  have hk : kalloc km = (km, none) := Prod.ext (congrArg Prod.fst (kalloc_none hnone)) hnone
  rw [if_neg (by rw [hcow]; decide), hk]

/-- **Bytes that are all `b`**: whatever comes of the call, each byte that the process sees is as before or `b`, and the
first one is `b` if its page can be stored to. -/
theorem copyout_paint {b : UInt8} (h : UserFrames L km pt) (dstva : Nat) (hb : ∀ x ∈ src, x = b) :
    ∃ km' pt' r, Xv6.copyout L km pt dstva src = .ok (km', pt', r)
      ∧ (∀ a, pt'.view km' a = pt.view km a ∨ pt'.view km' a = some b)
      ∧ (src ≠ [] → PGSIZE ≤ dstva → pt.user (dstva / PGSIZE) = true →
        ((pt.flat (dstva / PGSIZE)).flags.cow = true → (kalloc km).2 ≠ none) → pt'.view km' dstva = some b) := by
  induction hlen : src.length using Nat.strong_induction_on generalizing km pt dstva src with
  | _ n ih =>
    by_cases hsrc : src = []
    · exact ⟨km, pt, 0, by rw [Xv6.copyout, if_pos hsrc], fun _ => .inl rfl, fun hne => absurd hsrc hne⟩
    have hpos : 0 < src.length := List.length_pos_of_ne_nil hsrc
    rcases @copyout_page L km pt dstva src h hsrc with ⟨hrun, hfail⟩ | ⟨km₁, pt₁, -, huser, h₁, huser₁, hview₁, hrun⟩
    · refine ⟨km, pt, -1, hrun, fun _ => .inl rfl, fun _ hlow huser hmem => ?_⟩
      rcases hfail with hzero | hu | ⟨hnone, hcow⟩
      · omega
      · rw [huser] at hu
        cases hu
      · exact absurd hnone (hmem hcow)
    have hshort := chunk_lt dstva hsrc
    rw [sub_pagedown] at hshort
    obtain ⟨km', pt', r, hrun', hall, -⟩ := @ih _ (by rw [← hlen]; exact hshort) km₁ pt₁
      (src.drop (chunk dstva src)) h₁ (PGROUNDDOWN dstva + PGSIZE) (fun x hx => hb x (List.mem_of_mem_drop hx)) rfl
    -- what the first page got
    have hfirst : ∀ a, pt₁.view km₁ a = pt.view km a ∨ pt₁.view km₁ a = some b := by
      intro a
      rw [hview₁, overwritten]
      split
      · rename_i hin
        rw [List.getElem?_eq_getElem (by omega), hb _ (List.mem_of_mem_take (List.getElem_mem _))]
        exact .inr rfl
      · exact .inl rfl
    refine ⟨km', pt', r, hrun.trans hrun', fun a => ?_, fun _ _ _ _ => ?_⟩
    · rcases hall a with heq | heq
      · rw [heq]
        exact hfirst a
      · exact .inr heq
    · rcases hall dstva with heq | heq
      · have hchunk : 0 < (src.take (chunk dstva src)).length := by
          rw [List.length_take]
          simp only [chunk, PGSIZE]
          omega
        rw [heq, hview₁, overwritten, if_pos (by omega), List.getElem?_eq_getElem (by omega),
          hb _ (List.mem_of_mem_take (List.getElem_mem _))]
      · exact heq

end Copyout

/-! ## §3. The stages of a call. -/

section Stages

variable {L : Layout} {s s₁ s' : Sys} {p c : Slot} {sp : Space} {addr : Nat}

theorem intBytes_length (v : UInt32) : (intBytes v).length = 4 := rfl

theorem intBytes_ne_nil (v : UInt32) : intBytes v ≠ [] := List.ne_nil_of_length_pos (by rw [intBytes_length]; decide)

/-- The address spaces have their invariant. -/
def Held (L : Layout) (s : Sys) : Prop := ∃ K, Spaces.Inv L K s.mem

/-- A store of the kernel to the memory of `p`: the table and the other address spaces stay. -/
structure Stored (L : Layout) (p : Slot) (s s' : Sys) : Prop where
  held : Held L s'
  proc : s'.proc = s.proc
  others : ∀ q, q ≠ p → s'.mem.proc q = s.mem.proc q
  space : ∀ sp, s.mem.proc p = some sp → ∃ sp', s'.mem.proc p = some sp' ∧ Resolves sp.pagetable sp'.pagetable

theorem Stored.refl (h : Held L s) : Stored L p s s := ⟨h, rfl, fun _ _ => rfl, fun sp hp => ⟨sp, hp, .refl _⟩⟩

theorem Stored.trans (h : Stored L p s s₁) (h' : Stored L p s₁ s') : Stored L p s s' := by
  refine ⟨h'.held, h'.proc.trans h.proc, fun q hq => (h'.others q hq).trans (h.others q hq), fun sp hp => ?_⟩
  obtain ⟨sp₁, hp₁, hres⟩ := h.space sp hp
  obtain ⟨sp', hp', hres'⟩ := h'.space sp₁ hp₁
  exact ⟨sp', hp', hres.trans hres'⟩

/-- **A store** returns 0 if it reaches user pages other than page 0, and -1 if not or for want of memory, which plain pages
do not need. -/
theorem copyout_spec (h : Held L s) (hp : s.mem.proc p = some sp) (dstva : Nat) {src : List UInt8} (hsrc : src ≠ []) :
    ∃ s' r, copyout L s p dstva src = .ok (s', r) ∧ Stored L p s s'
      ∧ ((r = 0 ∧ Reaches sp.pagetable dstva src.length ∧ s'.mem.view p = overwritten (s.mem.view p) dstva src)
        ∨ (r = -1 ∧ ¬ Reaches sp.pagetable dstva src.length)
        ∨ (r = -1 ∧ (kalloc s'.mem.km).2 = none ∧ ¬ Plain sp.pagetable dstva src.length)) := by
  obtain ⟨K, hinv⟩ := h
  obtain ⟨hgood, hown⟩ := hinv.own hp
  have hown : s.mem.km.Owns L (sp.pagetable.refs (npages sp.sz)
      + ({Lib.Ref.own sp.trapframe} + (s.mem.others p + s.mem.kernelRefs + K))) := hown.of_eq (by rw [Space.refs]; abel)
  obtain ⟨km, pt, r, hrun, hshape, hmv, -, hres, -⟩ := Spaces.copyout_moves hgood.shape hown dstva src
  have hinv' : Spaces.Inv L K (s.mem.put km p (some { sp with pagetable := pt })) :=
    hinv.one (fun _ hsp => Option.some.inj hsp ▸ ⟨hshape, hgood.small⟩) hmv.frame
  refine ⟨{ s with mem := s.mem.put km p (some { sp with pagetable := pt }) }, r, ?_, ⟨⟨K, hinv'⟩, rfl, ?_, ?_⟩, ?_⟩
  · rw [copyout, hp]
    dsimp only
    rw [hrun, Result.ok_bind]
  · exact fun q hq => Spaces.Sys.put_ne _ _ _ hq
  · intro sp₀ hp₀
    obtain rfl := Option.some.inj (hp.symm.trans hp₀)
    exact ⟨_, Spaces.Sys.put_self .., hres⟩
  obtain ⟨km₁, pt₁, r₁, hrun₁, hcases⟩ := copyout_writes (hgood.shape.userFrames hown) dstva src
  rw [hrun] at hrun₁
  cases hrun₁
  rcases hcases with ⟨hr, hzero, hall, hview⟩ | ⟨hr, hnot⟩ | ⟨hr, hnone⟩
  · refine .inl ⟨hr, ⟨hzero.resolve_left hsrc, hall⟩, ?_⟩
    rw [Spaces.Sys.view_put_self, Spaces.Sys.view_some hp]
    exact hview
  · exact .inr (.inl ⟨hr, fun hreach => hnot ⟨.inr hreach.1, hreach.2⟩⟩)
  · refine .inr (.inr ⟨hr, hnone, fun hplain => ?_⟩)
    obtain ⟨km₀, hok⟩ : ∃ km₀, Xv6.copyout L s.mem.km sp.pagetable dstva src = .ok (km₀, sp.pagetable, 0) := copyout_plain hplain
    rw [hrun] at hok
    cases hok
    cases hr

/-- **Freeing a child** leaves the other processes, and what they see. -/
theorem freeproc_spec (h : Held L s) (hne : p ≠ c) :
    ∃ s', freeproc L s c = .ok s' ∧ Held L s' ∧ s'.proc = Function.update s.proc c (s.proc c).freed
      ∧ s'.mem.proc c = none ∧ (∀ q, q ≠ c → s'.mem.proc q = s.mem.proc q) ∧ s'.mem.view p = s.mem.view p := by
  obtain ⟨K, hinv⟩ := h
  unfold freeproc
  cases hc : s.mem.proc c with
  | none => exact ⟨_, rfl, ⟨K, hinv⟩, rfl, hc, fun _ _ => rfl, rfl⟩
  | some sc =>
    obtain ⟨hgood, hown⟩ := hinv.own hc
    obtain ⟨km, hrun, hmv⟩ := Spaces.freeproc_spec hgood hown
    dsimp only
    rw [hrun, Result.ok_bind]
    refine ⟨_, rfl, ⟨K, hinv.one (fun _ hsp => (nomatch hsp)) hmv⟩, rfl, Spaces.Sys.put_self .., fun q hq => ?_, ?_⟩
    · exact Spaces.Sys.put_ne _ _ _ hq
    · exact hinv.view_other hmv hne

end Stages

/-! ## §4. Calls. -/

section Calls

variable {L : Layout} {p : Slot} {addr addr1 addr2 : Nat} {ss : List Sys}

/-- A state in which `p` scans: it runs, and every zombie has a pid. -/
structure Scans (L : Layout) (p : Slot) (s : Sys) : Prop where
  held : Held L s
  space : ∃ sp, s.mem.proc p = some sp
  runs : (s.proc p).state ≠ .ZOMBIE
  pids : ∀ c, (s.proc c).state = .ZOMBIE → 0 < (s.proc c).pid

/-- `c` is a child of `p`. -/
def child (s : Sys) (p c : Slot) : Bool := decide ((s.proc c).parent = some p)

/-- `c` is a child of `p` that has exited. -/
def zombie (s : Sys) (p c : Slot) : Bool := child s p c && decide ((s.proc c).state = .ZOMBIE)

/-- A parent in `wait` stays awake: it has a zombie or no children, or it has been killed. -/
def awake (p : Slot) (s : Sys) : Bool :=
  (List.finRange NPROC).any (zombie s p) || !(List.finRange NPROC).any (child s p) || (s.proc p).killed

/-- The first state in which the parent stays awake, and its first zombie there. -/
def ending (p : Slot) (ss : List Sys) : Option (Sys × Option Slot) :=
  (ss.find? (awake p)).map fun s => (s, (List.finRange NPROC).find? (zombie s p))

/-- **The scan** finds the first zombie, and whether there are children. -/
theorem scan_eq (s : Sys) (p : Slot) (cs : List Slot) : ∀ havekids,
    scan s p cs havekids = (cs.find? (zombie s p), havekids || cs.any (child s p)) := by
  induction cs with
  | nil => exact fun havekids => Prod.ext rfl (Bool.or_false havekids).symm
  | cons c cs ih =>
    intro havekids
    rw [scan]
    by_cases hpar : (s.proc c).parent = some p
    · by_cases hz : (s.proc c).state = .ZOMBIE
      · simp [hpar, hz, zombie, child]
      · simp [hpar, hz, ih, zombie, child]
    · simp [hpar, ih, zombie, child]

/-- The call ends with the first scan after which it does not sleep. -/
theorem ending_cons (s : Sys) : ending p (s :: ss) =
    match scan s p (List.finRange NPROC) false with
    | (some c, _) => some (s, some c)
    | (none, havekids) => if !havekids || (s.proc p).killed then some (s, none) else ending p ss := by
  rw [scan_eq]
  unfold ending
  cases hfind : (List.finRange NPROC).find? (zombie s p) with
  | some c =>
    have hawake : awake p s = true := by
      unfold awake
      rw [List.any_eq_true.mpr ⟨c, List.mem_finRange c, List.find?_some hfind⟩]
      rfl
    rw [List.find?_cons_of_pos hawake, Option.map_some, hfind]
  | none =>
    have hnone : (List.finRange NPROC).any (zombie s p) = false :=
      List.any_eq_false.mpr fun c hc => List.find?_eq_none.mp hfind c hc
    have hawake : awake p s = (!(List.finRange NPROC).any (child s p) || (s.proc p).killed) := by
      rw [awake, hnone, Bool.false_or]
    dsimp only
    rw [Bool.false_or, ← hawake]
    split
    · rw [List.find?_cons_of_pos ‹_›, Option.map_some, hfind]
    · rw [List.find?_cons_of_neg ‹_›]

/-- The call of `sys_waitx` is decided by the scan that ends it. -/
theorem sys_waitx_ending (garbage : UInt32 × UInt32) : sys_waitx L p addr addr1 addr2 garbage ss =
    match ending p ss with
    | none => .ok none
    | some (s, none) => storeTimes L s p addr1 addr2 garbage (-1) >>= fun x => .ok (some ⟨s, x.1, x.2, none⟩)
    | some (s, some c) => report L s p c addr >>= fun y =>
        storeTimes L y.1 p addr1 addr2 (s.proc c).times y.2 >>= fun x => .ok (some ⟨s, x.1, x.2, some c⟩) := by
  induction ss with
  | nil => rfl
  | cons s ss ih =>
    rw [ending_cons, sys_waitx, waitx, wait]
    cases hscan : scan s p (List.finRange NPROC) false with
    | mk found havekids =>
      cases found with
      | some c =>
        dsimp only
        cases report L s p c addr with
        | error e => rfl
        | ok y => rfl
      | none =>
        dsimp only
        split
        · rfl
        · exact ih

/-- The scan that ends the call is one of its scans, and finds a zombie of the caller or none. -/
theorem ending_mem {s : Sys} {found : Option Slot} (h : ending p ss = some (s, found)) :
    s ∈ ss ∧ ∀ c, found = some c → (s.proc c).state = .ZOMBIE ∧ (s.proc c).parent = some p := by
  obtain ⟨s', hs', heq⟩ := Option.map_eq_some_iff.mp h
  cases heq
  refine ⟨List.mem_of_find?_eq_some hs', fun c hc => ?_⟩
  have hzombie : zombie s p c = true := List.find?_some hc
  obtain ⟨hpar, hz⟩ := Bool.and_eq_true_iff.mp hzombie
  exact ⟨of_decide_eq_true hz, of_decide_eq_true hpar⟩

/-- **The stores of the times**: both succeed, or the call returns -1. -/
theorem storeTimes_spec {s : Sys} {sp : Space} (h : Held L s) (hp : s.mem.proc p = some sp) (addr1 addr2 : Nat) (times : UInt32 × UInt32) (ret : Int) :
    ∃ s' r, storeTimes L s p addr1 addr2 times ret = .ok (s', r) ∧ Stored L p s s'
      ∧ ((r = ret ∧ (Reaches sp.pagetable addr1 4 ∧ Reaches sp.pagetable addr2 4)
          ∧ s'.mem.view p = overwritten (overwritten (s.mem.view p) addr1 (intBytes times.1)) addr2 (intBytes times.2))
        ∨ (r = -1 ∧ ¬ (Reaches sp.pagetable addr1 4 ∧ Reaches sp.pagetable addr2 4))
        ∨ (r = -1 ∧ (kalloc s'.mem.km).2 = none ∧ ¬ (Plain sp.pagetable addr1 4 ∧ Plain sp.pagetable addr2 4))) := by
  unfold storeTimes
  obtain ⟨s₁, r₁, hrun₁, hst₁, hr₁⟩ := copyout_spec h hp addr1 (intBytes_ne_nil times.1)
  obtain ⟨sp₁, hp₁, hres⟩ := hst₁.space sp hp
  obtain ⟨s₂, r₂, hrun₂, hst₂, hr₂⟩ := copyout_spec hst₁.held hp₁ addr2 (intBytes_ne_nil times.2)
  rw [intBytes_length] at hr₁ hr₂
  rw [hrun₁, Result.ok_bind]
  dsimp only
  rcases hr₁ with ⟨rfl, hreach₁, hview₁⟩ | ⟨rfl, hno⟩ | ⟨rfl, hnone, hno⟩
  · rw [if_neg (by decide), hrun₂, Result.ok_bind]
    dsimp only
    rw [reaches_resolves hres] at hr₂
    rcases hr₂ with ⟨rfl, hreach₂, hview₂⟩ | ⟨rfl, hno⟩ | ⟨rfl, hnone, hno⟩
    · exact ⟨s₂, ret, rfl, hst₁.trans hst₂, .inl ⟨rfl, ⟨hreach₁, hreach₂⟩, by rw [hview₂, hview₁]⟩⟩
    · exact ⟨s₂, -1, rfl, hst₁.trans hst₂, .inr (.inl ⟨rfl, fun hreach => hno hreach.2⟩)⟩
    · exact ⟨s₂, -1, rfl, hst₁.trans hst₂, .inr (.inr ⟨rfl, hnone, fun hplain => hno (hplain.2.resolves hres)⟩)⟩
  · exact ⟨s₁, -1, rfl, hst₁, .inr (.inl ⟨rfl, fun hreach => hno hreach.1⟩)⟩
  · exact ⟨s₁, -1, rfl, hst₁, .inr (.inr ⟨rfl, hnone, fun hplain => hno hplain.1⟩)⟩

/-- The first byte at `addr1` can be stored: a user page other than page 0, with memory for its copy if it needs one. -/
def FirstByte (s : Sys) (p : Slot) (addr1 : Nat) : Prop :=
  ∃ sp, s.mem.proc p = some sp ∧ PGSIZE ≤ addr1 ∧ sp.pagetable.user (addr1 / PGSIZE) = true
    ∧ ((sp.pagetable.flat (addr1 / PGSIZE)).flags.cow = true → (kalloc s.mem.km).2 ≠ none)

/-- A store of bytes that are all `b`. -/
theorem paint_spec {s : Sys} {sp : Space} {b : UInt8} {src : List UInt8} (h : Held L s) (hp : s.mem.proc p = some sp)
    (dstva : Nat) (hsrc : src ≠ []) (hb : ∀ x ∈ src, x = b) :
    ∃ s' r, copyout L s p dstva src = .ok (s', r) ∧ Stored L p s s'
      ∧ (∀ a, s'.mem.view p a = s.mem.view p a ∨ s'.mem.view p a = some b)
      ∧ (FirstByte s p dstva → s'.mem.view p dstva = some b) := by
  obtain ⟨s', r, hrun, hst, -⟩ := copyout_spec h hp dstva hsrc
  obtain ⟨K, hinv⟩ := h
  obtain ⟨hgood, hown⟩ := hinv.own hp
  have hframes : UserFrames L s.mem.km sp.pagetable := hgood.shape.userFrames
    (F := {Lib.Ref.own sp.trapframe} + (s.mem.others p + s.mem.kernelRefs + K)) (hown.of_eq (by rw [Space.refs]; abel))
  obtain ⟨km, pt, r', hcopy, hall, hfirst⟩ := copyout_paint hframes dstva hb
  have hs' := hrun
  rw [copyout, hp] at hs'
  dsimp only at hs'
  rw [hcopy, Result.ok_bind] at hs'
  cases hs'
  refine ⟨_, _, hrun, hst, fun a => ?_, ?_⟩
  · rw [Spaces.Sys.view_put_self, Spaces.Sys.view_some hp]
    exact hall a
  · rintro ⟨sp', hp', hlow, huser, hmem⟩
    obtain rfl := Option.some.inj (hp.symm.trans hp')
    rw [Spaces.Sys.view_put_self]
    exact hfirst hsrc hlow huser hmem

/-- **What is stored shows**: with two times whose bytes are all `b`, the byte at `addr1` is `b` in the end. -/
theorem storeTimes_paint {s : Sys} {sp : Space} {b : UInt8} (h : Held L s)
    (hp : s.mem.proc p = some sp) (hfirst : FirstByte s p addr1) (addr2 : Nat) (times : UInt32 × UInt32) (h1 : ∀ x ∈ intBytes times.1, x = b)
    (h2 : ∀ x ∈ intBytes times.2, x = b) (ret : Int) :
    ∃ s' r, storeTimes L s p addr1 addr2 times ret = .ok (s', r) ∧ s'.mem.view p addr1 = some b := by
  unfold storeTimes
  obtain ⟨s₁, r₁, hrun₁, hst₁, -, hbyte⟩ := paint_spec h hp addr1 (intBytes_ne_nil times.1) h1
  obtain ⟨sp₁, hp₁, -⟩ := hst₁.space sp hp
  obtain ⟨s₂, r₂, hrun₂, -, hall, -⟩ := paint_spec hst₁.held hp₁ addr2 (intBytes_ne_nil times.2) h2
  rw [hrun₁, Result.ok_bind]
  dsimp only
  split
  · exact ⟨s₁, -1, rfl, hbyte hfirst⟩
  · have hend : s₂.mem.view p addr1 = some b := (hall addr1).elim (fun heq => heq.trans (hbyte hfirst)) id
    rw [hrun₂, Result.ok_bind]
    dsimp only
    split
    · exact ⟨s₂, -1, rfl, hend⟩
    · exact ⟨s₂, ret, rfl, hend⟩

/-- A store whose first byte fails stores nothing of the times. -/
theorem storeTimes_refused {s : Sys} {sp : Space} (hp : s.mem.proc p = some sp) (hfirst : ¬ FirstByte s p addr1)
    (times : UInt32 × UInt32) (ret : Int) : storeTimes L s p addr1 addr2 times ret
      = .ok ({ s with mem := s.mem.put s.mem.km p (some sp) }, -1) := by
  have hrefuse : Xv6.copyout L s.mem.km sp.pagetable addr1 (intBytes times.1) = .ok (s.mem.km, sp.pagetable, -1) :=
    copyout_first_refused (intBytes_ne_nil times.1) fun hpage => hfirst ⟨sp, hp, hpage⟩
  rw [storeTimes, copyout, hp]
  dsimp only
  rw [hrefuse]
  rfl

/-- **When `sys_waitx` depends on no residue of the stack**: whatever `wtime` and `rtime` held before, the outcome is the
same, exactly if no call that ends without a zombie can store a byte at `addr1`.  With a zombie its times are stored. -/
theorem times_determined (h : ∀ s ∈ ss, Scans L p s) :
    ((∀ garbage garbage', sys_waitx L p addr addr1 addr2 garbage ss = sys_waitx L p addr addr1 addr2 garbage' ss)
      ↔ ∀ s, ending p ss = some (s, none) → ¬ FirstByte s p addr1)
    ∧ ∀ s c, ending p ss = some (s, some c) → (s.proc c).state = .ZOMBIE ∧ (s.proc c).parent = some p
      ∧ ∀ garbage, sys_waitx L p addr addr1 addr2 garbage ss = report L s p c addr >>= fun y =>
        storeTimes L y.1 p addr1 addr2 (s.proc c).times y.2 >>= fun x => .ok (some ⟨s, x.1, x.2, some c⟩) := by
  refine ⟨?_, fun s c hend => ?_⟩
  · simp only [sys_waitx_ending]
    cases hend : ending p ss with
    | none => exact ⟨fun _ _ he => (nomatch he), fun _ _ _ => rfl⟩
    | some e =>
      obtain ⟨s, found⟩ := e
      cases found with
      | some c => exact ⟨fun _ _ he => (nomatch he), fun _ _ _ => rfl⟩
      | none =>
        have hs := h s (ending_mem hend).1
        obtain ⟨sp, hp⟩ := hs.space
        constructor
        · intro hsame s' he hfirst
          cases he
          -- a stack of zeros and one of ones
          have hzeros : ∀ x ∈ intBytes 0, x = 0 := by decide +kernel
          have hones : ∀ x ∈ intBytes 0xffffffff, x = 255 := by decide +kernel
          obtain ⟨s₀, r₀, hrun₀, hview₀⟩ := storeTimes_paint hs.held hp hfirst addr2 (0, 0) hzeros hzeros (-1)
          obtain ⟨s₁, r₁, hrun₁, hview₁⟩ := storeTimes_paint hs.held hp hfirst addr2 (0xffffffff, 0xffffffff) hones hones (-1)
          have heq := hsame (0, 0) (0xffffffff, 0xffffffff)
          dsimp only at heq
          rw [hrun₀, hrun₁, Result.ok_bind, Result.ok_bind] at heq
          have hs₀ : s₀ = s₁ := congrArg Call.after (Option.some.inj (Except.ok.inj heq))
          rw [hs₀, hview₁] at hview₀
          exact absurd (Option.some.inj hview₀) (by decide)
        · intro hfirst garbage garbage'
          dsimp only
          rw [storeTimes_refused hp (hfirst s rfl), storeTimes_refused hp (hfirst s rfl)]
  · obtain ⟨hz, hpar⟩ := (ending_mem hend).2 c rfl
    refine ⟨hz, hpar, fun garbage => ?_⟩
    rw [sys_waitx_ending, hend]

end Calls

/-! ## §5. The first process and its child. -/

/-- The child has exited with status 5. -/
def family (q : Slot) : Entry :=
  if q = initproc then ⟨.RUNNING, 1, none, false, 0, 0, 0, 0⟩
  else if q = 1 then ⟨.ZOMBIE, 2, some initproc, false, 5, 1, 3, 7⟩
  else ⟨.UNUSED, 0, none, false, 0, 0, 0, 0⟩

theorem scan_family (m : Spaces.Sys) : scan ⟨m, family⟩ initproc (List.finRange NPROC) false = (some 1, true) := rfl

theorem scans_family {L : Layout} {m : Spaces.Sys} {sp : Space} (h : Spaces.ReachableNoFail L m) (hp : m.proc initproc = some sp) :
    Scans L initproc ⟨m, family⟩ := by
  have hpids : ∀ c, (family c).state = .ZOMBIE → 0 < (family c).pid := by decide
  exact ⟨⟨0, h.inv⟩, ⟨sp, hp⟩, (nomatch ·), hpids⟩

/-- The parent has taken a page of heap since it forked, which is its own. -/
theorem parent_reachable : ∃ m sp, Spaces.ReachableNoFail Layout.small m ∧ m.proc initproc = some sp
    ∧ sp.pagetable.user 1 = true ∧ (sp.pagetable.flat 1).flags.cow = false := by
  obtain ⟨s₀, hstart, hrun⟩ := Spaces.booted_of_test (fun s =>
    Lib.reaches (fun s op => Spaces.forkFails Layout.small s op = false) (Spaces.step Layout.small) s
      [.fork initproc 1, .sbrk initproc 4096]
      fun s => (s.proc initproc).any fun sp => sp.pagetable.user 1 && !(sp.pagetable.flat 1).flags.cow)
    (by decide +kernel)
  obtain ⟨m, hm, hend⟩ := Lib.Reach.of_reaches _ _ hstart hrun
  obtain ⟨sp, hp, hpage⟩ := (Option.any_eq_true ..).mp hend
  rw [Bool.and_eq_true, Bool.not_eq_true'] at hpage
  exact ⟨m, sp, hm, hp, hpage⟩

theorem heap_plain {pt : Pagetable} {addr : Nat} (huser : pt.user 1 = true) (hcow : (pt.flat 1).flags.cow = false)
    (hlow : PGSIZE ≤ addr) (hhigh : addr + 4 ≤ 2 * PGSIZE) : Plain pt addr 4 := by
  intro a hle hlt
  have hpage : a / PGSIZE = 1 := by
    simp only [PGSIZE] at hlow hhigh ⊢
    omega
  rw [hpage]
  exact ⟨hlow.trans hle, huser, hcow⟩

theorem ending_family (m : Spaces.Sys) : ending initproc [⟨m, family⟩] = some (⟨m, family⟩, some 1) := by
  rw [ending_cons, scan_family]

theorem times_determined_family : ∃ s, (∀ s' ∈ [s], Scans Layout.small initproc s')
    ∧ ending initproc [s] = some (s, some 1)
    ∧ sys_waitx Layout.small initproc 0 4104 4108 (1, 0) [s] = sys_waitx Layout.small initproc 0 4104 4108 (2, 0) [s] := by
  obtain ⟨m, sp, hm, hp, -⟩ := parent_reachable
  have hscans : ∀ s' ∈ [(⟨m, family⟩ : Sys)], Scans Layout.small initproc s' := by
    intro s' hs'
    rw [List.mem_singleton.mp hs']
    exact scans_family hm hp
  refine ⟨⟨m, family⟩, hscans, ending_family m, (times_determined hscans).1.mpr (fun s hend => ?_) (1, 0) (2, 0)⟩
  rw [ending_family] at hend
  cases hend

/-- A process without children. -/
def childless (q : Slot) : Entry := { family q with state := if q = initproc then .RUNNING else .UNUSED, parent := none }

/-- **The stack leaks**: a caller without children gets what the kernel stack held. -/
theorem stack_leaks : ∃ s call call', Held Layout.small s
    ∧ sys_waitx Layout.small initproc 0 4104 4108 (1, 0) [s] = .ok (some call)
    ∧ sys_waitx Layout.small initproc 0 4104 4108 (2, 0) [s] = .ok (some call')
    ∧ call.after.mem.view initproc 4104 = some 1 ∧ call'.after.mem.view initproc 4104 = some 2 := by
  obtain ⟨m, sp, hm, hp, huser, hcow⟩ := parent_reachable
  have hheld : Held Layout.small ⟨m, childless⟩ := ⟨0, hm.inv⟩
  have hwait : wait Layout.small initproc 0 [⟨m, childless⟩]
      = .ok (some ⟨⟨m, childless⟩, ⟨m, childless⟩, -1, none⟩) := rfl
  have hrun : ∀ times : UInt32 × UInt32, ∃ call, sys_waitx Layout.small initproc 0 4104 4108 times [⟨m, childless⟩] = .ok (some call)
      ∧ call.after.mem.view initproc 4104 = (intBytes times.1)[0]? := by
    intro times
    have h1 : Plain sp.pagetable 4104 4 := heap_plain huser hcow (by decide) (by decide)
    have h2 : Plain sp.pagetable 4108 4 := heap_plain huser hcow (by decide) (by decide)
    obtain ⟨s', r, hstore, -, ⟨hr, -, hview⟩ | ⟨-, hno⟩ | ⟨-, -, hno⟩⟩ := storeTimes_spec hheld hp 4104 4108 times (-1)
    rotate_left
    · exact absurd ⟨h1.reaches (by decide), h2.reaches (by decide)⟩ hno
    · exact absurd ⟨h1, h2⟩ hno
    refine ⟨⟨⟨m, childless⟩, s', r, none⟩, ?_, ?_⟩
    · rw [sys_waitx, waitx, hwait]
      show (storeTimes Layout.small ⟨m, childless⟩ initproc 4104 4108 times (-1) >>= _) = _
      rw [hstore]
      rfl
    · rw [hview]
      rfl
  obtain ⟨call, hcall, hview⟩ := hrun (1, 0)
  obtain ⟨call', hcall', hview'⟩ := hrun (2, 0)
  exact ⟨⟨m, childless⟩, call, call', hheld, hcall, hcall', hview, hview'⟩

end Xv6.Reap
